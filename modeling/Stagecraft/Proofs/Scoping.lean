import Stagecraft.Scope
import Stagecraft.Staged.Definition

/-!
# Names and levels

A variable occurrence carries a name and a level. In a scope of names it is well placed if its level
is that of the innermost binding of its name: then looking it up by level and looking it up by name
find the same binding.
-/

namespace Stagecraft

namespace Scope

/-- The level of the innermost binding of a name. -/
def levelOf? (names : List String) (name : String) : Option Nat := lastIndex? (· == name) names

theorem lastIndex?_append {α : Type} (p : α → Bool) (xs ys : List α) :
    lastIndex? p (xs ++ ys) =
      match lastIndex? p ys with
      | some i => some (xs.length + i)
      | none => lastIndex? p xs := by
  induction xs with
  | nil => cases h : lastIndex? p ys <;> simp [lastIndex?, h]
  | cons x rest ih =>
    rw [List.cons_append, lastIndex?, ih]
    cases lastIndex? p ys with
    | none => rw [lastIndex?]
    | some i => simp only [List.length_cons]; congr 1; omega

theorem lastIndex?_map {α β : Type} (p : β → Bool) (f : α → β) (xs : List α) :
    lastIndex? p (xs.map f) = lastIndex? (fun x => p (f x)) xs := by
  induction xs with
  | nil => rfl
  | cons x rest ih => rw [List.map_cons, lastIndex?, lastIndex?, ih]

theorem lastIndex?_eq_none {α : Type} {p : α → Bool} {xs : List α} :
    lastIndex? p xs = none ↔ ∀ x ∈ xs, p x = false := by
  induction xs with
  | nil => simp [lastIndex?]
  | cons x rest ih =>
    rw [lastIndex?, List.forall_mem_cons, ← ih]
    cases lastIndex? p rest with
    | none => cases h : p x <;> simp
    | some i => simp

theorem lastIndex?_some {α : Type} {p : α → Bool} {xs : List α} {i : Nat}
    (h : lastIndex? p xs = some i) : ∃ x, xs[i]? = some x ∧ p x = true := by
  induction xs generalizing i with
  | nil => cases h
  | cons x rest ih =>
    rw [lastIndex?] at h
    cases hr : lastIndex? p rest with
    | some j =>
      rw [hr] at h
      cases h
      exact ih hr
    | none =>
      rw [hr] at h
      cases hx : p x with
      | true =>
        rw [hx] at h
        cases h
        exact ⟨x, rfl, hx⟩
      | false => simp [hx] at h

theorem levelOf?_append (xs ys : List String) (name : String) :
    levelOf? (xs ++ ys) name =
      match levelOf? ys name with
      | some i => some (xs.length + i)
      | none => levelOf? xs name :=
  lastIndex?_append _ xs ys

theorem levelOf?_eq_none {names : List String} {name : String} :
    levelOf? names name = none ↔ name ∉ names := by
  rw [levelOf?, lastIndex?_eq_none]
  constructor
  · intro h hm
    simpa using h name hm
  · intro h x hx
    simpa using fun e : x = name => h (e ▸ hx)

theorem levelOf?_some {names : List String} {name : String} {i : Nat}
    (h : levelOf? names name = some i) : names[i]? = some name := by
  obtain ⟨x, hx, hp⟩ := lastIndex?_some h
  rw [hx, beq_iff_eq.1 hp]

theorem levelOf?_append_of_notMem {xs ys : List String} {name : String} (h : name ∉ ys) :
    levelOf? (xs ++ ys) name = levelOf? xs name := by
  rw [levelOf?_append, levelOf?_eq_none.2 h]

theorem levelOf?_append_of_some {xs ys : List String} {name : String} {i : Nat}
    (h : levelOf? ys name = some i) : levelOf? (xs ++ ys) name = some (xs.length + i) := by
  rw [levelOf?_append, h]

end Scope

namespace Staged

open Scope (levelOf?)

/-- The names that a pattern binds, from left to right. -/
def Pattern.binderNames (p : Pattern) : List String := p.binders.map (·.name)

namespace Term

mutual

/-- Whether every variable outside quotes and splices carries the level of the innermost binding of
its name. -/
def isScoped (names : List String) : Term → Bool
  | .literal .. | .command .. | .hole _ | .quote .. | .splice .. => true
  | .array _ _ es | .list _ es | .tuple _ es => areScoped names es
  | .compound _ fields => areFieldsScoped names fields
  | .ref _ e => isScoped names e
  | .lambda _ p b => isScoped (names ++ p.binderNames) b
  | .apply _ f a => isScoped names f && isScoped names a
  | .cond _ c a b => isScoped names c && isScoped names a && isScoped names b
  | .letIn _ p i b => isScoped names i && isScoped (names ++ p.binderNames) b
  | .var _ v => levelOf? names v.name == some v.level
  | .call _ _ a => isScoped names a
  | .test _ e _ => isScoped names e

/-- Whether several terms are scoped. -/
def areScoped (names : List String) : List Term → Bool
  | [] => true
  | t :: ts => isScoped names t && areScoped names ts

/-- Whether the fields of a record are scoped. -/
def areFieldsScoped (names : List String) : List (String × Term) → Bool
  | [] => true
  | (_, t) :: rest => isScoped names t && areFieldsScoped names rest

end

end Term

/-- The function found under a name is a definition of that name. -/
theorem Table.find?_function {table : Table} {name : DefName} {f : Function}
    (h : table.find? name = some (.function f)) :
    .function f ∈ table.definitions ∧ f.name = name := by
  have hname := List.find?_some h
  exact ⟨List.mem_of_find?_eq_some h, of_decide_eq_true hname⟩

/-- Whether the body of every function is scoped under its binder. -/
def Table.isScoped (table : Table) : Bool :=
  table.definitions.all fun
    | .function f => f.body.isScoped f.binder.binderNames
    | .resource _ | .alias _ => true

theorem Table.isScoped_function {table : Table} (h : table.isScoped = true) {f : Function}
    (hf : .function f ∈ table.definitions) : f.body.isScoped f.binder.binderNames = true :=
  List.all_eq_true.1 h _ hf

end Staged

end Stagecraft
