import Stagecraft.Emit.Slots
import Stagecraft.Flat.Term
import Stagecraft.Target.Artifact

/-!
# Instructions of a function

A value occupies one slot for each kind that its type erases to. The caller of a function pushes the
argument; the function leaves the result in its place. Slots of kind `end` have no content: they are
followed in the model, without instructions.

Comments are emitted on the side, and no index is ever computed from them.
-/

namespace Stagecraft.Emit

open Target (StackKind Location Instruction DataPath Source Nbt ScoreRange Register)
open Flat (Ty Pattern Term)

/-- Where locations belong, and whether comments describe the stack traffic. -/
structure Options where
  nspace : String
  debug : Bool
deriving DecidableEq, Inhabited

/-- What has been emitted so far, and the slots it leaves. -/
structure Output where
  slots : Slots
  instructions : Array Instruction
deriving Inhabited

/-- Computations that emit instructions; nothing of a failed one remains. -/
abbrev EmitM := StateT Output (Except Error)

/-- Add an instruction. -/
def emit (i : Instruction) : EmitM Unit :=
  modify fun o => { o with instructions := o.instructions.push i }

/-- An answer of the slot model. -/
def ask {α : Type} (f : Slots → Except Error α) : EmitM α := do
  f (← get).slots

/-- Change the slot model. -/
def follow (f : Slots → Slots) : EmitM Unit :=
  modify fun o => { o with slots := f o.slots }

/-- Change the slot model, where the change can fail. -/
def tryFollow (f : Slots → Except Error Slots) : EmitM Unit := do
  let o ← get
  set { o with slots := ← f o.slots }

/-- The one slot that a value must fit in to be stored inside another. -/
def oneSlot (ty : Ty) (what : String) : Except Error StackKind :=
  match ty.erase with
  | [k] => if k = .endTag then .error (.unsupported (what ++ " spanning several slots")) else .ok k
  | _ => .error (.unsupported (what ++ " spanning several slots"))

/-- A literal of the element kind of an array, as data. -/
def constant? (kind : ArrayKind) : Term → Option Nbt
  | .literal _ l =>
    match kind, l with
    | .byte, .byte _ | .byte, .bool _ | .int, .int _ | .long, .long _ => some (.ofLiteral l)
    | _, _ => none
  | _ => none

/-- An array with its literal elements in place and zeros elsewhere. -/
def arrayShell (kind : ArrayKind) (elements : List Term) : Nbt :=
  match kind with
  | .byte => .byteArray (elements.map fun e =>
      match constant? kind e with
      | some (.byte n) => n
      | _ => 0)
  | .int => .intArray (elements.map fun e =>
      match constant? kind e with
      | some (.int n) => n
      | _ => 0)
  | .long => .longArray (elements.map fun e =>
      match constant? kind e with
      | some (.long n) => n
      | _ => 0)

/-- The relative index of a record or list under one more slot. -/
def under (shell element : StackKind) : Int32 := if element = shell then -2 else -1

section

variable (options : Options)

/-- Add a comment, if comments are wanted. -/
def comment (line : String) : EmitM Unit :=
  if options.debug then emit (.comment line) else pure ()

/-- Push a slot. -/
def push (k : StackKind) (source : Source) : EmitM Unit := do
  if k ≠ .endTag then
    comment options ("push " ++ k.id)
    emit (.append (.whole k) source)
  follow (·.push k)

/-- Take out the slot at a relative index, which lies under the slots named. -/
def removeAt (k : StackKind) (i : Int32) (keeps : List StackKind) : EmitM Unit := do
  tryFollow fun s => return (← s.remove k i).2
  if k ≠ .endTag then
    comment options ("drop " ++ k.id ++ " under [" ++ commaSeparated (keeps.map (·.id)) ++ "]")
    emit (.remove (.slot k i))

/-- Take out the topmost slot of a kind under the slots named. -/
def drop (k : StackKind) (keeps : List StackKind) : EmitM Unit :=
  removeAt options k (-1 - Int32.ofNat (keeps.count k)) keeps

/-- Take out the topmost slots of several kinds, in order. -/
def dropAll (keeps : List StackKind) : List StackKind → EmitM Unit
  | [] => pure ()
  | k :: ks => do
    drop options k keeps
    dropAll keeps ks

/-- Take out the topmost anonymous slot of a kind. -/
def removeFree (k : StackKind) : EmitM Unit := do
  let position ← ask (·.lastFree k)
  removeAt options k ((← get).slots.relative k position) []

/-- Take out the topmost anonymous slots of several kinds, in order. -/
def removeFreeAll : List StackKind → EmitM Unit
  | [] => pure ()
  | k :: ks => do
    removeFree options k
    removeFreeAll ks

/-- Forget slots that a callee has consumed, the last one first. -/
def forget (ks : List StackKind) : EmitM Unit :=
  tryFollow fun s => ks.reverse.foldlM (fun s k => return (← s.remove k (-1)).2) s

/-- Bind the topmost anonymous slots to a level, the last one first. -/
def claimAll (level : Nat) (ks : List StackKind) : EmitM Unit :=
  tryFollow fun s => ks.reverse.foldlM (fun s k => s.claim k level) s

mutual

/-- Bind the value on top of the stacks to the variables of a pattern, without testing it. The
result is the kinds of the slots left behind, which the scope of the binder has to drop. Record
fields are copied out and the record is dropped. -/
def bind : Pattern → EmitM (List StackKind)
  | .var info v => do
    claimAll v.level info.ty.erase
    return info.ty.erase
  | .int .. | .range .. => do
    removeFree options .int
    return []
  | .wildcard info => do
    removeFreeAll options info.ty.erase.reverse
    return []
  | .tuple _ ps => bindAll ps
  | .compound _ fields => do
    let record ← ask (·.lastFree .compound)
    let frame ← bindFields record fields
    removeAt options .compound ((← get).slots.relative .compound record) []
    return frame
  | .list .. => throw (.unsupported "list patterns in code")

/-- Bind the values on top of the stacks to several patterns, the last one first. -/
def bindAll : List Pattern → EmitM (List StackKind)
  | [] => pure []
  | p :: ps => do
    let frame ← bindAll ps
    return (← bind p) ++ frame

/-- Copy the fields of a record out of its slot and bind them, in order. -/
def bindFields (record : Nat) : List (String × Pattern) → EmitM (List StackKind)
  | [] => pure []
  | (key, p) :: rest => do
    let k ← oneSlot p.ty "compound field"
    let i := (← get).slots.relative .compound record
    push options k (.copy ((DataPath.slot .compound i).field key))
    let frame ← bind p
    return frame ++ (← bindFields record rest)

end

/-- Clear the result register unless the scratch register lies in a range. -/
def guard (range : ScoreRange) : Instruction :=
  .ifScore true .scratch range (.setScore .result 0)

/-- Consume an integer on top of its stack, clearing the result register unless it lies in a
range. -/
def testInt (range : ScoreRange) : EmitM Unit := do
  emit (.storeScore .scratch (.slot .int (-1)))
  drop options .int []
  emit (guard range)

mutual

/-- Consume the value on top of the stacks, clearing the result register if it does not match. -/
def test : Pattern → EmitM Unit
  | .int _ n => testInt options (.exactly n)
  | .range _ min max => testInt options (.between min max)
  | .tuple _ ps => testAll ps
  | .var info _ | .wildcard info => dropAll options [] info.ty.erase.reverse
  | .list .. | .compound .. => throw (.unsupported "structured patterns in a test")

/-- Consume the values on top of the stacks, the last one first. -/
def testAll : List Pattern → EmitM Unit
  | [] => pure ()
  | p :: ps => do
    testAll ps
    test p

end

/-- Copy the slots of a variable to the top, in order. The kinds before and after the current slot
tell which of its slots of one kind is meant. -/
def copySlots (v : Var) (before : List StackKind) : List StackKind → EmitM Unit
  | [] => pure ()
  | k :: rest => do
    let arity := (before ++ k :: rest).count k
    match (← get).slots.find? k v.level (before.count k) arity with
    | none => throw (.unresolvedVariable v.name)
    | some i =>
      push options k (.copy (.slot k i))
      copySlots v (before ++ [k]) rest

/-- Copy captured variables into the record on top of its stack. -/
def storeCaptures : List Flat.Capture → EmitM Unit
  | [] => pure ()
  | c :: rest => do
    if c.ty.erase ≠ [.endTag] then
      let k ← oneSlot c.ty "captured variable"
      match (← get).slots.find? k c.v.level 0 1 with
      | none => throw (.unresolvedVariable c.v.name)
      | some i =>
        emit (.set ((DataPath.slot .compound (-1)).field c.v.name) (.copy (.slot k i)))
    storeCaptures rest

/-- Call the first definition if the result register is positive and the second one if not. -/
def jump (thenName elseName : DefName) : EmitM Unit := do
  emit (.ifScore false .result (.atLeast 1) (.call (.ofName options.nspace thenName)))
  emit (.ifScore false .result (.atMost 0) (.call (.ofName options.nspace elseName)))

mutual

/-- Push the value of a term. -/
def term : Term → EmitM Unit
  | .literal ty l => do
    let k ← oneSlot ty "literal"
    push options k (.value (.ofLiteral l))
  | .array ty kind es => do
    let k ← oneSlot ty "array"
    push options k (.value (arrayShell kind es))
    arrayElements k kind 0 es
  | .list _ es => do
    push options .list (.value (.list []))
    listElements es
  | .compound _ fields => do
    push options .compound (.value (.compound []))
    compoundFields fields
  | .ref .. => throw (.unsupported "boxed values")
  | .tuple _ es => terms es
  | .closure _ tag captures => do
    push options .compound (.value (.compound [("_", .int (Int32.ofNat tag))]))
    storeCaptures captures
  | .branch ty c a thenName elseName => do
    term c
    emit (.storeScore .result (.slot .byte (-1)))
    drop options .byte []
    -- one argument serves both calls: only one of them fires
    term a
    jump options thenName elseName
    forget a.ty.erase
    follow (·.pushAll ty.erase)
  | .letIn _ binder init body => do
    term init
    let frame ← bind options binder
    term body
    if binder.has .noDrop then
      follow fun s => binder.binders.foldl (fun s v => s.release v.level) s
    else
      dropAll options body.ty.erase frame.reverse
  | .var ty v => copySlots options v [] ty.erase
  | .call ty name a => do
    term a
    emit (.call (.ofName options.nspace name))
    forget a.ty.erase
    follow (·.pushAll ty.erase)
  | .test _ e p => do
    term e
    emit (.setScore .result 1)
    test options p
    push options .byte (.value (.byte 0))
    emit (.storeData (.slot .byte (-1)) .result)
  | .command ty line => do
    comment options "command"
    emit (.raw line)
    follow (·.pushAll ty.erase)

/-- Push the values of several terms, in order. -/
def terms : List Term → EmitM Unit
  | [] => pure ()
  | t :: ts => do
    term t
    terms ts

/-- Store the computed elements of an array, from an index on, in the array on top of its stack. -/
def arrayElements (shell : StackKind) (kind : ArrayKind) (index : Nat) : List Term → EmitM Unit
  | [] => pure ()
  | t :: ts => do
    if (constant? kind t).isNone then
      let k ← oneSlot t.ty "array element"
      term t
      emit (.set ((DataPath.slot shell (-1)).element (Int32.ofNat index)) (.copy (.slot k (-1))))
      drop options k []
    arrayElements shell kind (index + 1) ts

/-- Append elements to the list under them. -/
def listElements : List Term → EmitM Unit
  | [] => pure ()
  | t :: ts => do
    let k ← oneSlot t.ty "list element"
    term t
    emit (.append (.slot .list (under .list k)) (.copy (.slot k (-1))))
    drop options k []
    listElements ts

/-- Store fields in the record under them. -/
def compoundFields : List (String × Term) → EmitM Unit
  | [] => pure ()
  | (key, t) :: rest => do
    let k ← oneSlot t.ty "compound field"
    term t
    emit (.set ((DataPath.slot .compound (under .compound k)).field key) (.copy (.slot k (-1))))
    drop options k []
    compoundFields rest

end

/-- The slots left on the stacks must be of the kinds expected. -/
def checkShape (name : DefName) (expected : List StackKind) (s : Slots) : Except Error Unit :=
  StackKind.all.forM fun k =>
    if expected.count k = s.length k then .ok ()
    else .error (.shapeMismatch name.text k (expected.count k) (s.length k))

/-- Emit a function. Its binder leaves a frame of slots, which is dropped under the result unless
the function or its binder keeps it. -/
def functionBody (f : Flat.Function) : EmitM Unit := do
  comment options ("function " ++ f.name.text)
  -- the caller has pushed the argument
  follow (·.pushAll f.binder.ty.erase)
  let frame ← bind options f.binder
  term options f.body
  let result := f.result.erase
  if f.has .noDrop || f.binder.has .noDrop then
    ask (checkShape f.name (frame ++ result))
  else
    dropAll options result frame.reverse
    ask (checkShape f.name result)
  match f.restore with
  | some n => emit (.setScore .result n)
  | none => pure ()

/-- The instructions of a function. -/
def function (f : Flat.Function) : Except Error (List Instruction) := do
  let (_, o) ← (functionBody options f).run ⟨.empty, #[]⟩
  return o.instructions.toList

end

end Stagecraft.Emit
