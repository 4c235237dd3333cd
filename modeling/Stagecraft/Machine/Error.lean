import Stagecraft.Target.Instruction

/-!
# Failures of the reference machine
-/

namespace Stagecraft.Machine

open Target (Location DataPath)

/-- Why a run stops early. -/
inductive Error where
  | unknownFunction (location : Location)
  | noData (path : DataPath)
  | notANumber (path : DataPath)
  | mismatch (path : DataPath)
  | outOfFuel
deriving DecidableEq, Inhabited

/-- The text of a failure. -/
def Error.message : Error → String
  | .unknownFunction location => "no function at `" ++ location.text ++ "`"
  | .noData path => "no data at `" ++ path.text ++ "`"
  | .notANumber path => "`" ++ path.text ++ "` does not hold a number"
  | .mismatch path => "`" ++ path.text ++ "` cannot hold the value"
  | .outOfFuel => "ran out of fuel"

end Stagecraft.Machine
