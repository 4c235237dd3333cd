/-!
# Scopes

A scope is a sequence of bindings that grows and shrinks at one end. The level of a binding is the
number of bindings made before it. Entering a binder region appends; leaving it cuts the scope back
to the length it had on entry, so nothing is ever taken out of the middle.
-/

namespace Stagecraft

/-- Bindings, outermost first. -/
structure Scope (α : Type u) where
  items : List α
deriving DecidableEq

namespace Scope

variable {α : Type u} {β : Type v}

/-- No bindings. -/
def empty : Scope α := ⟨[]⟩

instance : Inhabited (Scope α) := ⟨empty⟩

/-- The number of bindings, which is the level of the next one. -/
def length (s : Scope α) : Nat := s.items.length

/-- One more binding, at level `s.length`. -/
def bind (s : Scope α) (item : α) : Scope α := ⟨s.items ++ [item]⟩

/-- The binding at a level. -/
def get? (s : Scope α) (level : Nat) : Option α := s.items[level]?

/-- The position of the last item that satisfies a test. -/
def lastIndex? (p : α → Bool) : List α → Option Nat
  | [] => none
  | x :: rest =>
    match lastIndex? p rest with
    | some i => some (i + 1)
    | none => if p x then some 0 else none

/-- The level of the innermost binding that satisfies a test. -/
def innermost? (s : Scope α) (p : α → Bool) : Option Nat := lastIndex? p s.items

/-- The scope cut back to its first `n` bindings. -/
def truncate (s : Scope α) (n : Nat) : Scope α := ⟨s.items.take n⟩

/-- A scope without bindings. -/
def isEmpty (s : Scope α) : Bool := s.items.isEmpty

@[simp] theorem length_bind (s : Scope α) (item : α) : (s.bind item).length = s.length + 1 := by
  simp [bind, length]

theorem get?_bind_length (s : Scope α) (item : α) : (s.bind item).get? s.length = some item := by
  simp [bind, length, get?]

theorem get?_bind_of_lt (s : Scope α) (item : α) {level : Nat} (h : level < s.length) :
    (s.bind item).get? level = s.get? level := by
  simp only [length] at h
  simp [bind, get?, List.getElem?_append_left h]

theorem lastIndex?_concat (p : α → Bool) (items : List α) (item : α) :
    lastIndex? p (items ++ [item]) = if p item then some items.length else lastIndex? p items := by
  induction items with
  | nil => simp [lastIndex?]
  | cons x rest ih =>
    by_cases h : p item <;> simp [lastIndex?, ih, h]

theorem innermost?_bind (s : Scope α) (item : α) (p : α → Bool) :
    (s.bind item).innermost? p = if p item then some s.length else s.innermost? p :=
  lastIndex?_concat p s.items item

@[simp] theorem truncate_bind (s : Scope α) (item : α) : (s.bind item).truncate s.length = s := by
  cases s; simp [truncate, bind, length]

end Scope

end Stagecraft
