import Stagecraft.Machine.Place

/-!
# The state of the reference machine

One data stack for each kind, the two score registers, and the commands that were passed on. A data
instruction either fails, and changes nothing, or gives the next state.
-/

namespace Stagecraft.Machine

open Target (StackKind PerKind Nbt PathNode DataPath Source Register Instruction)

/-- What instructions change. -/
structure State where
  /-- The values of each stack, from the top down. -/
  byKind : PerKind (List Nbt)
  result : Int32
  scratch : Int32
  /-- Raw commands in the order they ran. -/
  commands : Array String
deriving Inhabited

namespace State

/-- Empty stacks and registers at zero. -/
def empty : State := ⟨.const [], 0, 0, #[]⟩

/-- A stack from the top down. -/
def stack (s : State) (k : StackKind) : List Nbt := s.byKind.get k

/-- A value on top of a stack. -/
def push (s : State) (k : StackKind) (v : Nbt) : State :=
  { s with byKind := s.byKind.update k (v :: ·) }

/-- The number of slots over all stacks. -/
def depth (s : State) : Nat := StackKind.all.foldl (fun n k => n + (s.stack k).length) 0

/-- The score in a register. -/
def score (s : State) : Register → Int32
  | .result => s.result
  | .scratch => s.scratch

/-- A score put into a register. -/
def setScore (s : State) (r : Register) (n : Int32) : State :=
  match r with
  | .result => { s with result := n }
  | .scratch => { s with scratch := n }

/-- How many slots lie above the one at an index of a stack. -/
def depth? (s : State) (k : StackKind) (i : Int32) : Option Nat :=
  (position? (s.stack k).length i).map fun p => (s.stack k).length - 1 - p

/-- The value at a path. -/
def read (s : State) (path : DataPath) : Except Error Nbt :=
  let value? : Option Nbt :=
    match path.nodes with
    | .index i :: rest => do valueAt? (← (s.stack path.stack)[← s.depth? path.stack i]?) rest
    | _ => none
  match value? with
  | some v => .ok v
  | none => .error (.noData path)

/-- A change to the value at a path. -/
def change (s : State) (path : DataPath) (f : Nbt → Except Error Nbt) : Except Error State :=
  match path.nodes with
  | .index i :: rest =>
    match s.depth? path.stack i with
    | none => .error (.noData path)
    | some d =>
      match (s.stack path.stack)[d]? with
      | none => .error (.noData path)
      | some v => do
        let v ← changeAt (.noData path) f v rest
        return { s with byKind := s.byKind.update path.stack (·.set d v) }
  | _ => .error (.noData path)

/-- A path to a part of a slot, as the path of what it is a part of and the last step. -/
def splitPath (path : DataPath) : Except Error (DataPath × PathNode) :=
  match path.nodes.dropLast, path.nodes.getLast? with
  | parent@(_ :: _), some node => .ok (⟨path.stack, parent⟩, node)
  | _, _ => .error (.mismatch path)

/-- A value put at a path: into a slot, or into a part of one. -/
def write (s : State) (path : DataPath) (value : Nbt) : Except Error State := do
  match path.nodes with
  | [_] => s.change path fun _ => .ok value
  | _ =>
    let (parent, node) ← splitPath path
    s.change parent (withPart (.mismatch path) node value)

/-- The slot or part at a path taken out. -/
def remove (s : State) (path : DataPath) : Except Error State := do
  match path.nodes with
  | [.index i] =>
    match s.depth? path.stack i with
    | none => .error (.noData path)
    | some d => .ok { s with byKind := s.byKind.update path.stack (·.eraseIdx d) }
  | _ =>
    let (parent, node) ← splitPath path
    s.change parent (withoutPart (.noData path) node)

/-- The value of a source. -/
def source (s : State) : Source → Except Error Nbt
  | .value v => .ok v
  | .copy path => s.read path

/-- An integer of any width as a score. -/
def scoreOf? : Nbt → Option Int32
  | .byte n => some n.toInt32
  | .short n => some n.toInt32
  | .int n => some n
  | .long n => some n.toInt32
  | _ => none

/-- The state after an instruction other than a call or a condition. -/
def apply (s : State) : Instruction → Except Error State
  | .append target src => do
    let v ← s.source src
    match target.nodes with
    | [] => return s.push target.stack v
    | _ => s.change target (appended (.mismatch target) v)
  | .set target src => do s.write target (← s.source src)
  | .remove target => s.remove target
  | .setScore r n => .ok (s.setScore r n)
  | .storeScore r path => do
    match scoreOf? (← s.read path) with
    | some n => return s.setScore r n
    | none => throw (.notANumber path)
  | .storeData path r => s.write path (.byte (s.score r).toInt8)
  | .raw line => .ok { s with commands := s.commands.push line }
  | .comment _ | .ifScore .. | .call _ => .ok s

end State

end Stagecraft.Machine
