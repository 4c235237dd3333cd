import Stagecraft.Staged.Definition
import Stagecraft.Eval.Error
import Stagecraft.Memo
import Stagecraft.Scope

/-!
# Values and the store

A value is a head form whose parts are cells of a store, so that a structure can be built without
evaluating the parts nobody looks at. A computation that waits for an unknown variable is a neutral
value; it keeps the type of its stuck argument, which reading it back needs.
-/

namespace Stagecraft.Eval

open Staged (Ty Pattern Term)

/-- The place of a cell in the store. -/
abbrev CellId := Nat

/-- The cells bound so far, by level, and how many definition bodies were unfolded to get here. -/
structure Env where
  cells : Scope CellId
  depth : Nat
deriving Inhabited

namespace Env

/-- No bindings, outside every definition body. -/
def empty : Env := ⟨.empty, 0⟩

/-- The cell bound at a level. -/
def get? (env : Env) (level : Nat) : Option CellId := env.cells.get? level

/-- The environment with one more binding. -/
def bind (env : Env) (cell : CellId) : Env := { env with cells := env.cells.bind cell }

/-- The environment of a definition body: nothing is bound, one unfolding deeper. -/
def enter (env : Env) : Env := ⟨.empty, env.depth + 1⟩

/-- The environment with only its first bindings left. -/
def truncate (env : Env) (n : Nat) : Env := { env with cells := env.cells.truncate n }

end Env

/-- Values. The forms from `var` on are neutral. -/
inductive Value where
  | literal (value : Literal)
  | array (kind : ArrayKind) (elements : List CellId)
  | list (elements : List CellId)
  | compound (fields : List (String × CellId))
  | ref (element : CellId)
  | tuple (elements : List CellId)
  /-- A function with the environment it was evaluated in. -/
  | closure (binder : Pattern) (body : Term) (env : Env)
  | quote (element : CellId)
  | var (v : Var)
  | apply (operator : Value) (argument : CellId) (argumentTy : Ty)
  | cond (condition : Value) (thenClause elseClause : CellId)
  | call (name : DefName) (argument : Value) (argumentTy : Ty)
  | test (scrutinee : Value) (pattern : Pattern) (scrutineeTy : Ty)
  | command (line : String)
  | splice (element : Value) (codeTy : Ty)
  /-- A variable of a binder whose initializer is stuck. -/
  | project (binder : Pattern) (init : Value) (v : Var)
deriving Inhabited

namespace Value

/-- Whether the value waits for an unknown one. -/
def isNeutral : Value → Bool
  | .literal _ | .array .. | .list _ | .compound _ | .ref _ | .tuple _ | .closure .. | .quote _ =>
    false
  | .var _ | .apply .. | .cond .. | .call .. | .test .. | .command _ | .splice .. | .project .. =>
    true

/-- The name of the head form. -/
def head : Value → String
  | .literal _ => "literal"
  | .array .. => "array"
  | .list _ => "list"
  | .compound _ => "compound"
  | .ref _ => "ref"
  | .tuple _ => "tuple"
  | .closure .. => "function"
  | .quote _ => "code"
  | .var _ => "variable"
  | .apply .. => "application"
  | .cond .. => "conditional"
  | .call .. => "call"
  | .test .. => "pattern test"
  | .command _ => "command"
  | .splice .. => "splice"
  | .project .. => "projection"

/-- The truth value that a literal holds. -/
def bool? : Value → Option Bool
  | .literal (.bool b) => some b
  | _ => none

/-- The integer that a literal holds. -/
def int? : Value → Option Int32
  | .literal (.int n) => some n
  | _ => none

end Value

/-- A term together with the environment it appeared in. -/
structure Suspension where
  env : Env
  term : Term
deriving Inhabited

/-- A cell that holds a suspended term or the value it was found to have. -/
abbrev Cell := Memo Suspension Value

/-- The cells allocated so far. -/
structure Store where
  cells : Array Cell
deriving Inhabited

namespace Store

/-- No cells. -/
def empty : Store := ⟨#[]⟩

/-- The state of a cell; a place that was never allocated counts as one that is being forced. -/
def read (c : CellId) (s : Store) : Cell := s.cells[c]?.getD .forcing

/-- The store with the state of a cell replaced. -/
def write (c : CellId) (cell : Cell) (s : Store) : Store := ⟨s.cells.setIfInBounds c cell⟩

/-- The store with one more cell, at the place that is returned. -/
def alloc (cell : Cell) (s : Store) : CellId × Store := (s.cells.size, ⟨s.cells.push cell⟩)

end Store

/-- Computations that read and change the store. What they did to it stays when they stop. -/
abbrev EvalM := ExceptT (Stop Error) (StateM Store)

namespace EvalM

/-- Stop with a failure. -/
def fail {α : Type} (e : Error) : EvalM α := throw (.failed e)

/-- Stop because the recursion went as deep as the fuel allows. -/
def outOfFuel {α : Type} : EvalM α := throw .outOfFuel

/-- An answer that does not look at the store. -/
def ofExcept {α : Type} : Except Error α → EvalM α
  | .ok a => pure a
  | .error e => fail e

/-- Try the first computation; when it fails, run the second one on the store the first one left.
Running out of fuel is not a failure. -/
def orElse {α : Type} (first second : EvalM α) : EvalM α := fun s =>
  match first s with
  | (.error (.failed _), s') => second s'
  | outcome => outcome

/-- A new cell. -/
def alloc (cell : Cell) : EvalM CellId := fun s =>
  let (c, s') := s.alloc cell
  (.ok c, s')

/-- A new cell that suspends a term. -/
def suspend (env : Env) (term : Term) : EvalM CellId := alloc (.suspended ⟨env, term⟩)

/-- New cells that suspend several terms. -/
def suspendAll (env : Env) : List Term → EvalM (List CellId)
  | [] => pure []
  | t :: ts => do
    let c ← suspend env t
    return c :: (← suspendAll env ts)

/-- New cells that suspend the fields of a record. -/
def suspendFields (env : Env) : List (String × Term) → EvalM (List (String × CellId))
  | [] => pure []
  | (key, t) :: rest => do
    let c ← suspend env t
    return (key, c) :: (← suspendFields env rest)

/-- Bind variables to themselves, in order. -/
def bindNeutral (env : Env) : List Var → EvalM Env
  | [] => pure env
  | v :: vs => do
    let c ← alloc (.forced (.var v))
    bindNeutral (env.bind c) vs

end EvalM

/-- A way to evaluate a term in an environment. -/
abbrev Evaluation := Env → Term → EvalM Value

/-- The value of a cell. -/
def force (eval : Evaluation) (c : CellId) : EvalM Value :=
  Memo.force (Store.read c) (Store.write c) (fun s => eval s.env s.term) (.failed .cyclicValue)

end Stagecraft.Eval
