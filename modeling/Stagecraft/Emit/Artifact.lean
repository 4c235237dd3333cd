import Stagecraft.Emit.Code
import Stagecraft.Flat.ClosureTable

/-!
# Artifacts of flat definitions

Functions become instructions, resources become data trees, and builtins leave nothing behind. One
more function, the dispatcher, is made from the table of closure bodies.
-/

namespace Stagecraft.Emit

open Target (Artifact Location Tree DataPath)
open Flat (Term ClosureTable)

mutual

/-- A resource body as plain data. Boxes are looked through; whatever needs running is rejected. -/
def tree : Term → Except Error Tree
  | .literal _ l => .ok (.leaf l)
  | .array _ _ es | .list _ es => do return .array (← trees es)
  | .compound _ fields => do return .object (← fieldTrees fields)
  | .ref _ e => tree e
  | .tuple .. | .closure .. | .branch .. | .letIn .. | .var .. | .call .. | .test .. | .command .. =>
    .error (.unsupported "a resource body that is not plain data")

/-- Several terms as plain data. -/
def trees : List Term → Except Error (List Tree)
  | [] => .ok []
  | t :: ts => do
    let t ← tree t
    return t :: (← trees ts)

/-- The fields of a record as plain data. -/
def fieldTrees : List (String × Term) → Except Error (List (String × Tree))
  | [] => .ok []
  | (key, t) :: rest => do
    let t ← tree t
    return (key, t) :: (← fieldTrees rest)

end

/-- The artifact of a flat definition. -/
def artifact? (options : Options) : Flat.Definition → Except Error (Option Artifact)
  | .function f => do
    return some (.function (.ofName options.nspace f.name) (← function options f))
  | .builtin _ => .ok none
  | .resource r => do
    return some (.resource r.registry (.ofName options.nspace r.name) (← tree r.body))

/-- The function that every application calls. It reads the tag of the closure on top of its stack
and calls the body of that tag. Every body restores its own tag on exit, so that the guards after it
stay quiet. -/
def dispatcher (options : Options) (table : ClosureTable) : Artifact :=
  .function (.ofName options.nspace Flat.dispatcher)
    (.storeScore .result ((DataPath.slot .compound (-1)).field "_") ::
      table.tagged.map fun e =>
        .ifScore false .result (.exactly (Int32.ofNat e.1)) (.call (.ofName options.nspace e.2)))

end Stagecraft.Emit
