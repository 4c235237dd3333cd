import Stagecraft.Keyed
import Stagecraft.Machine.Error

/-!
# Places inside data

Reading, changing and removing what a data path points at. A negative index counts from the end of
a sequence; arrays hold numbers that cannot be reached by going through them, only set.
-/

namespace Stagecraft.Machine

open Target (Nbt PathNode)

/-- The position of an index in a sequence of some length. -/
def position? (length : Nat) (i : Int32) : Option Nat :=
  let p : Int := if i < 0 then length + i.toInt else i.toInt
  if 0 ≤ p ∧ p < length then some p.toNat else none

/-- The value that path steps lead to. -/
def valueAt? : Nbt → List PathNode → Option Nbt
  | v, [] => some v
  | .compound fields, .key k :: rest => do valueAt? (← Keyed.find? k fields) rest
  | .list es, .index i :: rest => do valueAt? (← es[← position? es.length i]?) rest
  | _, _ :: _ => none

/-- The value with a change made where path steps lead; `missing` if they lead nowhere. -/
def changeAt (missing : Error) (change : Nbt → Except Error Nbt) :
    Nbt → List PathNode → Except Error Nbt
  | v, [] => change v
  | .compound fields, .key k :: rest =>
    match Keyed.find? k fields with
    | none => .error missing
    | some v => do return .compound (Keyed.insert k (← changeAt missing change v rest) fields)
  | .list es, .index i :: rest =>
    match position? es.length i with
    | none => .error missing
    | some p =>
      match es[p]? with
      | none => .error missing
      | some v => do return .list (es.set p (← changeAt missing change v rest))
  | _, _ :: _ => .error missing

/-- A list with a value at its end. -/
def appended (mismatch : Error) (value : Nbt) : Nbt → Except Error Nbt
  | .list es => .ok (.list (es ++ [value]))
  | _ => .error mismatch

/-- A sequence with an element replaced. -/
def replaced {α : Type} (mismatch : Error) (es : List α) (i : Int32) (value : α) :
    Except Error (List α) :=
  match position? es.length i with
  | none => .error mismatch
  | some p => .ok (es.set p value)

/-- A value with one of its parts set: a field of a record, an element of a list, or an element of
an array to a number of its kind. -/
def withPart (mismatch : Error) (node : PathNode) (value : Nbt) : Nbt → Except Error Nbt := fun v =>
  match v, node, value with
  | .compound fields, .key k, value => .ok (.compound (Keyed.insert k value fields))
  | .list es, .index i, value => do return .list (← replaced mismatch es i value)
  | .byteArray es, .index i, .byte n => do return .byteArray (← replaced mismatch es i n)
  | .intArray es, .index i, .int n => do return .intArray (← replaced mismatch es i n)
  | .longArray es, .index i, .long n => do return .longArray (← replaced mismatch es i n)
  | _, _, _ => .error mismatch

/-- A value without one of its parts: a field of a record or an element of a list. -/
def withoutPart (missing : Error) (node : PathNode) : Nbt → Except Error Nbt := fun v =>
  match v, node with
  | .compound fields, .key k =>
    if (Keyed.find? k fields).isSome then .ok (.compound (Keyed.erase k fields)) else .error missing
  | .list es, .index i =>
    match position? es.length i with
    | none => .error missing
    | some p => .ok (.list (es.eraseIdx p))
  | _, _ => .error missing

end Stagecraft.Machine
