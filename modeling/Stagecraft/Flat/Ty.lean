import Stagecraft.Keyed
import Stagecraft.Literal
import Stagecraft.Target.StackKind

/-!
# Types of the flat language

The types that have a run-time representation. A value occupies one slot on a data stack for every
storage kind that its type erases to; only tuples take several slots.
-/

namespace Stagecraft.Flat

open Target (StackKind)

/-- Flat types: no refinements, no code, no variables and no aliases. -/
inductive Ty where
  | scalar (s : Scalar)
  | array (kind : ArrayKind)
  | list (element : Ty)
  | compound (fields : List (String × Ty))
  | ref (element : Ty)
  | tuple (elements : List Ty)
  | function (param result : Ty)
  | union (alternatives : List Ty)
deriving Inhabited

/-- The storage kind of a scalar; truth values are bytes. -/
def scalarKind : Scalar → StackKind
  | .bool | .byte => .byte
  | .short => .short
  | .int => .int
  | .long => .long
  | .float => .float
  | .double => .double
  | .string => .string

/-- The storage kind of an array. -/
def arrayKind : ArrayKind → StackKind
  | .byte => .byteArray
  | .int => .intArray
  | .long => .longArray

namespace Ty

/-- The type `int`. -/
def int : Ty := .scalar .int

mutual

/-- The kinds of the slots that a value of the type occupies, in the order they are pushed. A union
is laid out as its first alternative; the empty union is one slot without content. -/
def erase : Ty → List StackKind
  | .scalar s => [scalarKind s]
  | .array kind => [arrayKind kind]
  | .list _ => [.list]
  | .compound _ | .function .. => [.compound]
  | .ref _ => [.int]
  | .tuple es => eraseAll es
  | .union [] => [.endTag]
  | .union (e :: _) => e.erase

/-- The slots of several values, one after another. -/
def eraseAll : List Ty → List StackKind
  | [] => []
  | t :: ts => t.erase ++ eraseAll ts

end

mutual

/-- A type on one line. -/
def text : Ty → String
  | .scalar s => s.text
  | .array kind => "[" ++ kind.letter ++ ";]"
  | .list e => "[" ++ e.text ++ "]"
  | .compound fields => "\x7b" ++ commaSeparated (fieldTexts fields) ++ "\x7d"
  | .ref e => "&" ++ e.text
  | .tuple es => "(" ++ commaSeparated (texts es) ++ ")"
  | .function param result => "fun(" ++ param.text ++ ") -> " ++ result.text
  | .union es => "union\x7b" ++ commaSeparated (texts es) ++ "\x7d"

/-- The texts of several types. -/
def texts : List Ty → List String
  | [] => []
  | t :: ts => t.text :: texts ts

/-- The fields of a record type, each with its key. -/
def fieldTexts : List (String × Ty) → List String
  | [] => []
  | (key, t) :: rest => (key ++ ": " ++ t.text) :: fieldTexts rest

end

end Ty

end Stagecraft.Flat
