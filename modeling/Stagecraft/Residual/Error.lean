import Stagecraft.Eval.Error

/-!
# Failures of staging
-/

namespace Stagecraft.Residual

/-- Why a definition has no residual. -/
inductive Error where
  | eval (error : Eval.Error)
  | unexpectedHole
  | cyclicAlias (name : DefName)
deriving DecidableEq, Inhabited

namespace Error

/-- The text of a failure. -/
def message : Error → String
  | .eval e => e.message
  | .unexpectedHole => "unexpected hole during staging"
  | .cyclicAlias name => "type alias `" ++ name.text ++ "` never reaches a type"

/-- Whether the failure is a defect of an earlier phase. -/
def isDefect : Error → Bool
  | .eval e => e.isDefect
  | .unexpectedHole | .cyclicAlias _ => true

end Error

end Stagecraft.Residual
