import Stagecraft.Staged.Definition
import Stagecraft.Residual.Error

/-!
# How far a type is from run time

The code depth of a type is the number of code wrappers nested in its data. Types of depth zero
belong to the residual program. Functions, unions and type variables count as zero whatever they
contain, and so does a name that no type alias has.
-/

namespace Stagecraft.Residual

open Staged (Ty Table)

section

variable (depthOfAlias : DefName → Except Error Nat)

mutual

/-- The code depth of a type, given that of the aliases in it. -/
def depthWith : Ty → Except Error Nat
  | .scalar _ | .singleton _ | .array _ | .function .. | .union _ | .var _ => .ok 0
  | .list e | .ref e => depthWith e
  | .compound fields => deepestField 0 fields
  | .tuple es => deepest 0 es
  | .code e => do return (← depthWith e) + 1
  | .alias name => depthOfAlias name
  | .hole => .error .unexpectedHole

/-- The greatest code depth of several types, and at least `least`. -/
def deepest (least : Nat) : List Ty → Except Error Nat
  | [] => .ok least
  | t :: ts => do deepest (max least (← depthWith t)) ts

/-- The greatest code depth of the fields of a record type, and at least `least`. -/
def deepestField (least : Nat) : List (String × Ty) → Except Error Nat
  | [] => .ok least
  | (_, t) :: rest => do deepestField (max least (← depthWith t)) rest

end

end

/-- The code depth of a type where aliases are expanded at most `fuel` times inside each other. -/
def depthWithin (table : Table) : Nat → Ty → Except Error Nat
  | 0 => depthWith fun name => .error (.cyclicAlias name)
  | fuel + 1 => depthWith fun name =>
    match table.alias? name with
    | some body => depthWithin table fuel body
    | none => .ok 0

/-- The code depth of a type. An expansion deeper than the table has definitions is a cycle. -/
def codeDepth (table : Table) (ty : Ty) : Except Error Nat :=
  depthWithin table table.size ty

end Stagecraft.Residual
