import Stagecraft.Staged.Pattern
import Stagecraft.Flat.Ty

/-!
# Failures of conversion to the flat language
-/

namespace Stagecraft.Flat

open Target (StackKind)

/-- The name of a staged mark in a message. -/
def markTitle : Staged.Mark → String
  | .tick => "Tick"
  | .load => "Load"
  | .noDrop => "NoDrop"
  | .builtin => "Builtin"
  | .exported => "Export"
  | .inlined => "Inline"
  | .static => "Static"

/-- Why a definition has no flat form. -/
inductive Error where
  | unexpectedHole
  | unexpectedStaging
  | unexpectedType (text : String)
  | unexpectedMark (mark : Staged.Mark)
  | unresolvedVariable (name : String)
  | unresolvedDefinition (name : DefName)
  | branchShapeMismatch (expected found : List StackKind)
deriving DecidableEq, Inhabited

namespace Error

/-- Stack kinds as a list in brackets. -/
def kindsText (kinds : List StackKind) : String :=
  "[" ++ commaSeparated (kinds.map StackKind.title) ++ "]"

/-- The text of a failure. -/
def message : Error → String
  | .unexpectedHole => "unexpected hole during lifting"
  | .unexpectedStaging => "quote or splice left after staging"
  | .unexpectedType text => "type `" ++ text ++ "` has no runtime representation"
  | .unexpectedMark a => "annotation " ++ markTitle a ++ " cannot reach lifting"
  | .unresolvedVariable name => "variable `" ++ name ++ "` is not in scope"
  | .unresolvedDefinition name => "definition `" ++ name.text ++ "` does not exist"
  | .branchShapeMismatch expected found =>
    "conditional branches occupy " ++ kindsText found ++ " but the conditional occupies " ++
      kindsText expected

/-- Whether the failure is a defect of an earlier phase. -/
def isDefect : Error → Bool
  | .unexpectedType _ => false
  | _ => true

end Error

end Stagecraft.Flat
