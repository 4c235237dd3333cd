/-!
# Kinds of data stacks

Every primitive storage kind has a stack of its own at run time.
-/

namespace Stagecraft.Target

/-- The primitive storage kinds. Values of kind `endTag` have no content. -/
inductive StackKind where
  | endTag | byte | short | int | long | float | double | string | byteArray | intArray | longArray
  | list | compound
deriving DecidableEq, Inhabited, Repr

namespace StackKind

/-- All kinds, in order. -/
def all : List StackKind :=
  [.endTag, .byte, .short, .int, .long, .float, .double, .string, .byteArray, .intArray,
    .longArray, .list, .compound]

/-- The name of the stack inside the storage. -/
def id : StackKind → String
  | .endTag => "end"
  | .byte => "byte"
  | .short => "short"
  | .int => "int"
  | .long => "long"
  | .float => "float"
  | .double => "double"
  | .string => "string"
  | .byteArray => "byte_array"
  | .intArray => "int_array"
  | .longArray => "long_array"
  | .list => "list"
  | .compound => "compound"

/-- The name of the kind in a message. -/
def title : StackKind → String
  | .endTag => "End"
  | .byte => "Byte"
  | .short => "Short"
  | .int => "Int"
  | .long => "Long"
  | .float => "Float"
  | .double => "Double"
  | .string => "String"
  | .byteArray => "ByteArray"
  | .intArray => "IntArray"
  | .longArray => "LongArray"
  | .list => "List"
  | .compound => "Compound"

/-- The place of a kind in the order. -/
def index : StackKind → Fin 13
  | .endTag => 0
  | .byte => 1
  | .short => 2
  | .int => 3
  | .long => 4
  | .float => 5
  | .double => 6
  | .string => 7
  | .byteArray => 8
  | .intArray => 9
  | .longArray => 10
  | .list => 11
  | .compound => 12

theorem index_injective {a b : StackKind} (h : a.index = b.index) : a = b := by
  revert h; cases a <;> cases b <;> decide

end StackKind

/-- One value for each kind. -/
structure PerKind (α : Type u) where
  values : Vector α 13

namespace PerKind

variable {α : Type u}

/-- The same value for all kinds. -/
def const (a : α) : PerKind α := ⟨.replicate 13 a⟩

instance [Inhabited α] : Inhabited (PerKind α) := ⟨const default⟩

/-- The value for a kind. -/
def get (p : PerKind α) (k : StackKind) : α := p.values[k.index]

/-- The value for one kind replaced. -/
def set (p : PerKind α) (k : StackKind) (a : α) : PerKind α := ⟨p.values.set k.index a⟩

/-- The value for one kind changed. -/
def update (p : PerKind α) (k : StackKind) (f : α → α) : PerKind α := p.set k (f (p.get k))

/-- All values changed. -/
def map (p : PerKind α) (f : α → α) : PerKind α := ⟨p.values.map f⟩

@[simp] theorem get_const (a : α) (k : StackKind) : (const a).get k = a := by
  simp [const, get]

theorem get_set (p : PerKind α) (k j : StackKind) (a : α) :
    (p.set k a).get j = if k = j then a else p.get j := by
  by_cases h : k = j
  · subst h; simp [set, get]
  · have hi : k.index.val ≠ j.index.val := fun e => h (StackKind.index_injective (Fin.ext e))
    simp [set, get, h, Vector.getElem_set_ne, hi]

@[simp] theorem get_map (p : PerKind α) (f : α → α) (k : StackKind) :
    (p.map f).get k = f (p.get k) := by
  simp [map, get]

end PerKind

end Stagecraft.Target
