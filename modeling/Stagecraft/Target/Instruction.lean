import Stagecraft.Target.Nbt
import Stagecraft.Target.Location
import Stagecraft.Target.StackKind

/-!
# Instructions

Data stacks live in one storage and the two scratch registers in one objective. Every instruction
is the text of one command.
-/

namespace Stagecraft.Target

/-- The storage that every data stack lives in. -/
def storage : String := "mcx:"

/-- The objective of the score registers. -/
def objective : String := "mcx"

/-- A step of a data path. -/
inductive PathNode where
  /-- From the end when negative. -/
  | index (i : Int32)
  | key (name : String)
deriving DecidableEq, Inhabited

/-- A place inside a stack. -/
structure DataPath where
  stack : StackKind
  nodes : List PathNode
deriving DecidableEq, Inhabited

namespace DataPath

/-- A whole stack, as the target of an append. -/
def whole (stack : StackKind) : DataPath := ⟨stack, []⟩

/-- A slot of a stack, counted from the top when negative. -/
def slot (stack : StackKind) (i : Int32) : DataPath := ⟨stack, [.index i]⟩

/-- An element of the sequence at a place. -/
def element (p : DataPath) (i : Int32) : DataPath := { p with nodes := p.nodes ++ [.index i] }

/-- A field of the record at a place. -/
def field (p : DataPath) (name : String) : DataPath := { p with nodes := p.nodes ++ [.key name] }

end DataPath

/-- The text of a path step. -/
def PathNode.text : PathNode → String
  | .index i => "[" ++ toString i.toInt ++ "]"
  | .key name => "." ++ Nbt.keyText name

/-- The text of a path: the name of the stack and the steps. -/
def DataPath.text (p : DataPath) : String :=
  p.stack.id ++ String.join (p.nodes.map PathNode.text)

/-- What a data instruction writes. -/
inductive Source where
  | value (v : Nbt)
  | copy (path : DataPath)
deriving Inhabited

/-- The text of a source. -/
def Source.text : Source → String
  | .value v => "value " ++ v.text
  | .copy path => "from storage " ++ storage ++ " " ++ path.text

/-- The score registers. -/
inductive Register where
  /-- Results of conditions and tests, and tags of closures. -/
  | result
  /-- What a test compares. -/
  | scratch
deriving DecidableEq, Inhabited, Repr

/-- The name of a register. -/
def Register.text : Register → String
  | .result => "#0"
  | .scratch => "#1"

/-- An inclusive range of scores, open at the ends that are not given. -/
structure ScoreRange where
  min : Option Int32
  max : Option Int32
deriving DecidableEq, Inhabited

namespace ScoreRange

/-- One score. -/
def exactly (n : Int32) : ScoreRange := ⟨some n, some n⟩

/-- From one score to another. -/
def between (min max : Int32) : ScoreRange := ⟨some min, some max⟩

/-- From a score on. -/
def atLeast (min : Int32) : ScoreRange := ⟨some min, none⟩

/-- Up to a score. -/
def atMost (max : Int32) : ScoreRange := ⟨none, some max⟩

/-- Whether a score lies in the range. -/
def contains (r : ScoreRange) (n : Int32) : Bool :=
  r.min.all (fun m => decide (m ≤ n)) && r.max.all (fun m => decide (n ≤ m))

/-- The text of a bound, empty for an open end. -/
def boundText : Option Int32 → String
  | some n => toString n.toInt
  | none => ""

/-- The text of a range. -/
def text (r : ScoreRange) : String := boundText r.min ++ ".." ++ boundText r.max

end ScoreRange

/-- Instructions of the target. -/
inductive Instruction where
  | append (target : DataPath) (source : Source)
  | set (target : DataPath) (source : Source)
  | remove (target : DataPath)
  | setScore (register : Register) (value : Int32)
  | storeScore (register : Register) (path : DataPath)
  | storeData (path : DataPath) (register : Register)
  | ifScore (negated : Bool) (register : Register) (range : ScoreRange) (body : Instruction)
  | call (location : Location)
  | comment (line : String)
  | raw (line : String)
deriving Inhabited

/-- The command of an instruction. -/
def Instruction.text : Instruction → String
  | .append target source =>
    "data modify storage " ++ storage ++ " " ++ target.text ++ " append " ++ source.text
  | .set target source =>
    "data modify storage " ++ storage ++ " " ++ target.text ++ " set " ++ source.text
  | .remove target => "data remove storage " ++ storage ++ " " ++ target.text
  | .setScore register value =>
    "scoreboard players set " ++ register.text ++ " " ++ objective ++ " " ++ toString value.toInt
  | .storeScore register path =>
    "execute store result score " ++ register.text ++ " " ++ objective ++
      " run data get storage " ++ storage ++ " " ++ path.text
  | .storeData path register =>
    "execute store result storage " ++ storage ++ " " ++ path.text ++
      " byte 1 run scoreboard players get " ++ register.text ++ " " ++ objective
  | .ifScore negated register range body =>
    "execute " ++ (if negated then "unless" else "if") ++ " score " ++ register.text ++ " " ++
      objective ++ " matches " ++ range.text ++ " run " ++ body.text
  | .call location => "function " ++ location.text
  | .comment line => "# " ++ line
  | .raw line => line

end Stagecraft.Target
