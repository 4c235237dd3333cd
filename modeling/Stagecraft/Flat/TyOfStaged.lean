import Stagecraft.Staged.Definition
import Stagecraft.Flat.Error

/-!
# Staged types as flat types

Refinements are forgotten and aliases expanded. Code, holes and type variables have no place at
run time.
-/

namespace Stagecraft.Flat

open Staged (Table)

section

variable (ofAlias : DefName → Except Error Ty)

mutual

/-- The flat form of a type, given that of the aliases in it. -/
def tyWith : Staged.Ty → Except Error Ty
  | .scalar s => .ok (.scalar s)
  | .singleton l => .ok (.scalar l.scalar)
  | .array kind => .ok (.array kind)
  | .list e => do return .list (← tyWith e)
  | .compound fields => do return .compound (← fieldTysWith fields)
  | .ref e => do return .ref (← tyWith e)
  | .tuple es => do return .tuple (← tysWith es)
  | .function param result => do
    let param ← tyWith param
    return .function param (← tyWith result)
  | .union es => do return .union (← tysWith es)
  | .code _ => .error .unexpectedStaging
  | .var v => .error (.unexpectedType (Staged.Ty.var v).text)
  | .alias name => ofAlias name
  | .hole => .error .unexpectedHole

/-- The flat forms of several types. -/
def tysWith : List Staged.Ty → Except Error (List Ty)
  | [] => .ok []
  | t :: ts => do
    let t ← tyWith t
    return t :: (← tysWith ts)

/-- The flat forms of the fields of a record type. -/
def fieldTysWith : List (String × Staged.Ty) → Except Error (List (String × Ty))
  | [] => .ok []
  | (key, t) :: rest => do
    let t ← tyWith t
    return (key, t) :: (← fieldTysWith rest)

end

end

/-- The flat form of a type where aliases are expanded at most `fuel` times inside each other. -/
def tyWithin (table : Table) : Nat → Staged.Ty → Except Error Ty
  | 0 => tyWith fun name => .error (.unexpectedType (Staged.Ty.alias name).text)
  | fuel + 1 => tyWith fun name =>
    match table.alias? name with
    | some body => tyWithin table fuel body
    | none => .error (.unresolvedDefinition name)

/-- The flat form of a type. An expansion deeper than the table has definitions is a cycle, which
has no run-time representation. -/
def Ty.ofStaged (table : Table) (ty : Staged.Ty) : Except Error Ty :=
  tyWithin table table.size ty

end Stagecraft.Flat
