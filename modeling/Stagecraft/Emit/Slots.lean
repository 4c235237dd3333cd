import Stagecraft.Emit.Error

/-!
# The slot model

While code is emitted, a model says for every slot of every data stack whether it belongs to a
variable or is an anonymous intermediate value. Slots are addressed as at run time: `-1` is the top
of a stack. A position is counted from the bottom instead, so that it stays the same while slots
come and go above it.
-/

namespace Stagecraft.Emit

open Target (StackKind PerKind)

/-- What a slot holds. -/
inductive Slot where
  | free
  /-- Bound to the variable of a level. -/
  | bound (level : Nat)
deriving DecidableEq, Inhabited, Repr

/-- The slots of each stack, from the top down. -/
structure Slots where
  byKind : PerKind (List Slot)
deriving Inhabited

namespace Slots

/-- All stacks empty. -/
def empty : Slots := ⟨.const []⟩

/-- The slots of a stack, from the top down. -/
def stack (s : Slots) (k : StackKind) : List Slot := s.byKind.get k

/-- The number of slots of a stack. -/
def length (s : Slots) (k : StackKind) : Nat := (s.stack k).length

/-- An anonymous slot on top of a stack. -/
def push (s : Slots) (k : StackKind) : Slots := ⟨s.byKind.update k (.free :: ·)⟩

/-- Anonymous slots on top of the stacks, in order. -/
def pushAll (s : Slots) (ks : List StackKind) : Slots := ks.foldl push s

/-- How many slots lie above the one at a relative index, if there is such a slot. -/
def depth? (s : Slots) (k : StackKind) (i : Int32) : Option Nat :=
  let above := -1 - i.toInt
  if 0 ≤ above ∧ above < s.length k then some above.toNat else none

/-- The relative index of a position. -/
def relative (s : Slots) (k : StackKind) (position : Nat) : Int32 :=
  Int32.ofNat position - Int32.ofNat (s.length k)

/-- Take out the slot at a relative index. -/
def remove (s : Slots) (k : StackKind) (i : Int32) : Except Error (Slot × Slots) :=
  match s.depth? k i with
  | none => .error (.stackUnderflow k)
  | some d =>
    match (s.stack k)[d]? with
    | none => .error (.stackUnderflow k)
    | some slot => .ok (slot, ⟨s.byKind.update k (·.eraseIdx d)⟩)

/-- How many slots lie above the topmost anonymous one. -/
def freeDepth? (s : Slots) (k : StackKind) : Option Nat :=
  (s.stack k).findIdx? (· == .free)

/-- The position of the topmost anonymous slot. -/
def lastFree (s : Slots) (k : StackKind) : Except Error Nat :=
  match s.freeDepth? k with
  | none => .error (.stackUnderflow k)
  | some d => .ok (s.length k - 1 - d)

/-- Bind the topmost anonymous slot to a level. -/
def claim (s : Slots) (k : StackKind) (level : Nat) : Except Error Slots :=
  match s.freeDepth? k with
  | none => .error (.stackUnderflow k)
  | some d => .ok ⟨s.byKind.update k (·.set d (.bound level))⟩

/-- Forget every binding of a level; the slots stay in place. -/
def release (s : Slots) (level : Nat) : Slots :=
  ⟨s.byKind.map fun slots => slots.map fun slot => if slot = .bound level then .free else slot⟩

/-- How many slots lie above each slot bound to a level, from the top down. -/
def boundDepths (s : Slots) (k : StackKind) (level : Nat) : List Nat :=
  (s.stack k).zipIdx.filterMap fun e => if e.1 = .bound level then some e.2 else none

/-- The relative index of one of the `arity` slots that a variable holds on a stack, counted by
`occurrence` from the bottom of them. Only the topmost `arity` slots of the level count, which are
those of its latest binding. -/
def find? (s : Slots) (k : StackKind) (level occurrence arity : Nat) : Option Int32 :=
  let depths := s.boundDepths k level
  if arity ≤ depths.length ∧ occurrence < arity then
    depths[arity - 1 - occurrence]?.map fun d => -1 - Int32.ofNat d
  else none

theorem stack_push (s : Slots) (k j : StackKind) :
    (s.push k).stack j = if k = j then .free :: s.stack k else s.stack j := by
  simp only [push, stack, PerKind.update, PerKind.get_set]

@[simp] theorem length_release (s : Slots) (level : Nat) (k : StackKind) :
    (s.release level).length k = s.length k := by
  simp [release, length, stack]

theorem length_claim {s s' : Slots} {k : StackKind} {level : Nat} (h : s.claim k level = .ok s')
    (j : StackKind) : s'.length j = s.length j := by
  rw [claim] at h
  split at h
  · cases h
  · cases h
    by_cases e : k = j
    · subst e; simp [length, stack, PerKind.update, PerKind.get_set]
    · simp [length, stack, PerKind.update, PerKind.get_set, e]

end Slots

end Stagecraft.Emit
