import Stagecraft.Target.StackKind

/-!
# Failures of code emission
-/

namespace Stagecraft.Emit

open Target (StackKind)

/-- Why a flat definition has no instructions. -/
inductive Error where
  | unresolvedVariable (name : String)
  | stackUnderflow (kind : StackKind)
  | unsupported (what : String)
  | shapeMismatch (location : String) (kind : StackKind) (expected found : Nat)
deriving DecidableEq, Inhabited

namespace Error

/-- The text of a failure. -/
def message : Error → String
  | .unresolvedVariable name => "variable `" ++ name ++ "` has no slot on the stacks"
  | .stackUnderflow kind => "the " ++ kind.id ++ " stack has no such slot"
  | .unsupported what => "not yet supported: " ++ what
  | .shapeMismatch location kind expected found =>
    "`" ++ location ++ "` leaves " ++ toString found ++ " " ++ kind.id ++ " slots instead of " ++
      toString expected

/-- Whether the failure is a defect of an earlier phase. -/
def isDefect : Error → Bool
  | .unsupported _ => false
  | _ => true

end Error

end Stagecraft.Emit
