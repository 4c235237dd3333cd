import Stagecraft.Name

/-!
# Why an evaluation stops without a value

An evaluation can fail, or it can run out of the fuel that bounds its recursion. The second is not
an answer about the program: more fuel may give any answer.
-/

namespace Stagecraft

/-- An interrupted computation: it failed, or its fuel was too small. -/
inductive Stop (ε : Type u) where
  | failed (error : ε)
  | outOfFuel
deriving DecidableEq, Inhabited

/-- The same interruption, with its error seen as another one. -/
def Stop.map {ε : Type u} {δ : Type v} (f : ε → δ) : Stop ε → Stop δ
  | .failed e => .failed (f e)
  | .outOfFuel => .outOfFuel

namespace Eval

/-- The failures of evaluation and read-back. -/
inductive Error where
  | unexpectedHole
  | missingBuiltin (name : DefName)
  | notAFunction (name : DefName)
  | cyclicValue
  /-- A value of this head form has no place at a type or pattern of this text. -/
  | illTyped (head expected : String)
deriving DecidableEq, Inhabited

namespace Error

/-- The text of a failure. -/
def message : Error → String
  | .unexpectedHole => "unexpected hole during evaluation"
  | .missingBuiltin name => "no native implementation registered for builtin `" ++ name.text ++ "`"
  | .notAFunction name => "`" ++ name.text ++ "` is called but is not a function"
  | .cyclicValue => "a value depends on itself"
  | .illTyped head expected => "cannot read back " ++ head ++ " at type " ++ expected

/-- Whether the failure is a defect of an earlier phase. -/
def isDefect : Error → Bool
  | .cyclicValue => false
  | .unexpectedHole | .missingBuiltin _ | .notAFunction _ | .illTyped .. => true

end Error

end Eval

end Stagecraft
