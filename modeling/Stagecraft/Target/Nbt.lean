import Stagecraft.Literal

/-!
# Data values

Constant data and its text. Numbers other than `int` carry the letter of their type; arrays name
theirs after the opening bracket. A key is written bare if it consists of safe characters only, and
quoted otherwise.
-/

namespace Stagecraft.Target

open Number (Binary32 Binary64 literalLayout)

/-- A data value. -/
inductive Nbt where
  | byte (value : Int8)
  | short (value : Int16)
  | int (value : Int32)
  | long (value : Int64)
  | float (value : Binary32)
  | double (value : Binary64)
  | string (value : String)
  | byteArray (elements : List Int8)
  | intArray (elements : List Int32)
  | longArray (elements : List Int64)
  | list (elements : List Nbt)
  | compound (fields : List (String × Nbt))
deriving Inhabited

namespace Nbt

/-- The data value of a literal; truth values are the bytes 0 and 1. -/
def ofLiteral : Literal → Nbt
  | .bool b => .byte (if b then 1 else 0)
  | .byte n => .byte n
  | .short n => .short n
  | .int n => .int n
  | .long n => .long n
  | .float x => .float x
  | .double x => .double x
  | .string s => .string s

/-- A character of a quoted string: quotes and backslashes are escaped, nothing else. -/
def quotedChar (c : Char) : List Char :=
  if c = '"' ∨ c = '\\' then ['\\', c] else [c]

/-- A string in quotes. -/
def quoted (s : String) : String :=
  String.ofList ('"' :: (s.toList.flatMap quotedChar ++ ['"']))

/-- The characters of a key that needs no quotes. -/
def isBareChar (c : Char) : Bool :=
  c.isAlphanum || c == '_' || c == '-' || c == '+'

/-- Whether a key needs no quotes. -/
def isBare (key : String) : Bool := !key.isEmpty && key.toList.all isBareChar

/-- A key as it is written in data and in paths. -/
def keyText (key : String) : String := if isBare key then key else quoted key

/-- Texts separated by commas. -/
def joined (texts : List String) : String := String.intercalate "," texts

mutual

/-- The text of a data value. -/
def text : Nbt → String
  | .byte n => toString n.toInt ++ "b"
  | .short n => toString n.toInt ++ "s"
  | .int n => toString n.toInt
  | .long n => toString n.toInt ++ "l"
  | .float x => x.text literalLayout ++ "f"
  | .double x => x.text literalLayout ++ "d"
  | .string s => quoted s
  | .byteArray es => "[B;" ++ joined (es.map fun n => toString n.toInt ++ "b") ++ "]"
  | .intArray es => "[I;" ++ joined (es.map fun n => toString n.toInt) ++ "]"
  | .longArray es => "[L;" ++ joined (es.map fun n => toString n.toInt ++ "l") ++ "]"
  | .list es => "[" ++ joined (texts es) ++ "]"
  | .compound fields => "\x7b" ++ joined (fieldTexts fields) ++ "\x7d"

/-- The texts of several data values. -/
def texts : List Nbt → List String
  | [] => []
  | v :: vs => v.text :: texts vs

/-- The fields of a record, each with its key. -/
def fieldTexts : List (String × Nbt) → List String
  | [] => []
  | (key, v) :: rest => (keyText key ++ ":" ++ v.text) :: fieldTexts rest

end

end Nbt

end Stagecraft.Target
