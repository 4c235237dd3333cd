import Stagecraft.Literal

/-!
# Data trees of resources

The body of a resource is plain data, handed to whoever writes the files of the pack.
-/

namespace Stagecraft.Target

/-- Plain data: literals, sequences and records. -/
inductive Tree where
  | leaf (value : Literal)
  | array (elements : List Tree)
  | object (fields : List (String × Tree))
deriving Inhabited

namespace Tree

open Number (literalLayout)

/-- A literal with the name of its type. -/
def leafText : Literal → String
  | .bool b => "Bool(" ++ Literal.boolText b ++ ")"
  | .byte n => "Byte(" ++ toString n.toInt ++ ")"
  | .short n => "Short(" ++ toString n.toInt ++ ")"
  | .int n => "Int(" ++ toString n.toInt ++ ")"
  | .long n => "Long(" ++ toString n.toInt ++ ")"
  | .float x => "Float(" ++ x.text literalLayout ++ ")"
  | .double x => "Double(" ++ x.text literalLayout ++ ")"
  | .string s => "String(" ++ Text.quoted s ++ ")"

mutual

/-- A tree on one line, every node with its type. -/
def text : Tree → String
  | .leaf l => leafText l
  | .array es => "Array([" ++ commaSeparated (texts es) ++ "])"
  | .object fields => "Object(\x7b" ++ commaSeparated (fieldTexts fields) ++ "\x7d)"

/-- The texts of several trees. -/
def texts : List Tree → List String
  | [] => []
  | t :: ts => t.text :: texts ts

/-- The fields of an object, each with its quoted key. -/
def fieldTexts : List (String × Tree) → List String
  | [] => []
  | (key, t) :: rest => (Text.quoted key ++ ": " ++ t.text) :: fieldTexts rest

end

end Tree

end Stagecraft.Target
