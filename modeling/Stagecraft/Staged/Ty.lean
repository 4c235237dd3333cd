import Stagecraft.Keyed
import Stagecraft.Literal
import Stagecraft.Name

/-!
# Types of the staged language
-/

namespace Stagecraft.Staged

/-- Staged types. A scalar type can be refined to the single value of a literal; `code` wraps the
type of program fragments that are known at compile time. -/
inductive Ty where
  | scalar (s : Scalar)
  /-- The type whose only inhabitant is the literal. -/
  | singleton (value : Literal)
  | array (kind : ArrayKind)
  | list (element : Ty)
  | compound (fields : List (String × Ty))
  | ref (element : Ty)
  | tuple (elements : List Ty)
  | function (param result : Ty)
  /-- The empty union has no content at run time. -/
  | union (alternatives : List Ty)
  | code (element : Ty)
  | var (v : Var)
  /-- The type that a definition of this name stands for. -/
  | alias (name : DefName)
  /-- Left open by elaboration; an error from there on. -/
  | hole
deriving Inhabited

namespace Ty

/-- The literal that a refined type pins its inhabitant to. -/
def singleton? : Ty → Option Literal
  | .singleton l => some l
  | _ => none

/-- The unrefined type of a literal. -/
def ofLiteral (l : Literal) : Ty := .scalar l.scalar

/-- The type of the elements of an array. -/
def ofElement (kind : ArrayKind) : Ty := .scalar kind.scalar

/-- The type `int`. -/
def int : Ty := .scalar .int

/-- The type `bool`. -/
def bool : Ty := .scalar .bool

mutual

/-- A type on one line. -/
def text : Ty → String
  | .scalar s => s.text
  | .singleton l => l.scalar.text ++ "(" ++ l.refinementText ++ ")"
  | .array kind => "[" ++ kind.letter ++ ";]"
  | .list e => "[" ++ e.text ++ "]"
  | .compound fields => "\x7b" ++ commaSeparated (fieldTexts fields) ++ "\x7d"
  | .ref e => "&" ++ e.text
  | .tuple es => "(" ++ commaSeparated (texts es) ++ ")"
  | .function param result => "fun(" ++ param.text ++ ") -> " ++ result.text
  | .union es => "union\x7b" ++ String.intercalate " | " (texts es) ++ "\x7d"
  | .code e => "code " ++ e.text
  | .var v => v.name
  | .alias name => name.text
  | .hole => "_"

/-- The texts of several types. -/
def texts : List Ty → List String
  | [] => []
  | t :: ts => t.text :: texts ts

/-- The fields of a record type, each with its key. -/
def fieldTexts : List (String × Ty) → List String
  | [] => []
  | (key, t) :: rest => (key ++ ": " ++ t.text) :: fieldTexts rest

end

end Ty

end Stagecraft.Staged
