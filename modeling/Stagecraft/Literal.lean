import Stagecraft.Number.FloatText
import Stagecraft.Text.Quoted

/-!
# Literals

The constants of the language and the scalar types they belong to.
-/

namespace Stagecraft

open Number (Binary32 Binary64 literalLayout plainLayout)

/-- The unrefined types of literals. -/
inductive Scalar where
  | bool | byte | short | int | long | float | double | string
deriving DecidableEq, Inhabited, Repr

/-- The name of a scalar type. -/
def Scalar.text : Scalar → String
  | .bool => "bool"
  | .byte => "byte"
  | .short => "short"
  | .int => "int"
  | .long => "long"
  | .float => "float"
  | .double => "double"
  | .string => "string"

/-- A constant. Integers have the width of their type and wrap. -/
inductive Literal where
  | bool (value : Bool)
  | byte (value : Int8)
  | short (value : Int16)
  | int (value : Int32)
  | long (value : Int64)
  | float (value : Binary32)
  | double (value : Binary64)
  | string (value : String)
deriving DecidableEq, Inhabited

/-- The element types of arrays. -/
inductive ArrayKind where
  | byte | int | long
deriving DecidableEq, Inhabited, Repr

/-- The letter that opens an array of a kind. -/
def ArrayKind.letter : ArrayKind → String
  | .byte => "B"
  | .int => "I"
  | .long => "L"

/-- The scalar type of the elements of an array. -/
def ArrayKind.scalar : ArrayKind → Scalar
  | .byte => .byte
  | .int => .int
  | .long => .long

namespace Literal

/-- The scalar type that a literal belongs to. -/
def scalar : Literal → Scalar
  | .bool _ => .bool
  | .byte _ => .byte
  | .short _ => .short
  | .int _ => .int
  | .long _ => .long
  | .float _ => .float
  | .double _ => .double
  | .string _ => .string

/-- The text of a truth value. -/
def boolText (b : Bool) : String := if b then "true" else "false"

/-- A literal in a term: numbers other than `int` carry the letter of their type. -/
def text : Literal → String
  | .bool b => boolText b
  | .byte n => toString n.toInt ++ "b"
  | .short n => toString n.toInt ++ "s"
  | .int n => toString n.toInt
  | .long n => toString n.toInt ++ "l"
  | .float x => x.text literalLayout ++ "f"
  | .double x => x.text literalLayout ++ "d"
  | .string s => Text.quoted s

/-- A literal in a refined type, where the type is named beside it. -/
def refinementText : Literal → String
  | .bool b => boolText b
  | .byte n => toString n.toInt
  | .short n => toString n.toInt
  | .int n => toString n.toInt
  | .long n => toString n.toInt
  | .float x => x.text plainLayout
  | .double x => x.text plainLayout
  | .string s => Text.quoted s

end Literal

/-- A variable: the name it is written with and the level of its binding, which is the number of
bindings around it. -/
structure Var where
  name : String
  level : Nat
deriving DecidableEq, Inhabited, Repr

/-- A variable occurrence or binder reads `name@level`. -/
def Var.text (v : Var) : String := v.name ++ "@" ++ toString v.level

/-- The data-driven registries that a resource can belong to. -/
inductive Registry where
  | advancements | lootTables | predicates | itemModifiers | recipes | dimensions | dimensionTypes
deriving DecidableEq, Inhabited, Repr

/-- The directory of a registry inside a data pack. -/
def Registry.directory : Registry → String
  | .advancements => "advancements"
  | .lootTables => "loot_tables"
  | .predicates => "predicates"
  | .itemModifiers => "item_modifiers"
  | .recipes => "recipes"
  | .dimensions => "dimension"
  | .dimensionTypes => "dimension_type"

/-- Texts separated by a comma and a space. -/
def commaSeparated (texts : List String) : String := String.intercalate ", " texts

end Stagecraft
