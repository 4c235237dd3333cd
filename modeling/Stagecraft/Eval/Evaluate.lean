import Stagecraft.Eval.Matching
import Stagecraft.Eval.Native

/-!
# Evaluation by need

Terms are evaluated to their head form against a fixed definition table. Arguments, fields and
clauses become cells that are evaluated when they are first looked at. A call is unfolded in a fresh
environment, up to a limit on the number of bodies unfolded inside each other; beyond it, and where
the called name is not defined, the call stays as a neutral value.

The recursion is bounded by fuel, one unit for every term entered inside another.
-/

namespace Stagecraft.Eval

open Staged (Ty Pattern Term Table)

/-- How many definition bodies may be unfolded inside each other by default. -/
def defaultUnfoldLimit : Nat := 64

/-- Fuel for evaluations whose depth is not known beforehand. -/
def defaultFuel : Nat := 1000000

/-- What evaluation depends on beside the term. -/
structure Context where
  definitions : Table
  natives : Natives
  unfoldLimit : Nat
deriving Inhabited

section

variable (cx : Context) (eval : Evaluation) (forceCell : CellId → EvalM Value)

/-- Evaluate a body with the variables of its binder bound to the parts of a cell. -/
def enterBody (env : Env) (binder : Pattern) (c : CellId) (body : Term) : EvalM Value := do
  eval (← extend forceCell env binder c) body

/-- A call to a top-level definition. -/
def call (env : Env) (name : DefName) (argument : Term) : EvalM Value := do
  match cx.definitions.find? name with
  | some (.function f) =>
    if f.has .builtin then
      match Keyed.find? name cx.natives with
      | none => EvalM.fail (.missingBuiltin name)
      | some native =>
        let v ← eval env argument
        match ← native.run forceCell v with
        | some result => return result
        | none => return .call name v argument.ty
    else if cx.unfoldLimit ≤ env.depth then
      return .call name (← eval env argument) argument.ty
    else
      enterBody eval forceCell env.enter f.binder (← EvalM.suspend env argument) f.body
  | some (.resource _) | some (.alias _) => EvalM.fail (.notAFunction name)
  | none => return .call name (← eval env argument) argument.ty

/-- Evaluate a term, with `eval` for the terms inside and `forceCell` for the cells. -/
def evaluateWith (env : Env) : Term → EvalM Value
  | .literal _ l => return .literal l
  | .array _ kind es => return .array kind (← EvalM.suspendAll env es)
  | .list _ es => return .list (← EvalM.suspendAll env es)
  | .compound _ fields => return .compound (← EvalM.suspendFields env fields)
  | .ref _ e => return .ref (← EvalM.suspend env e)
  | .tuple _ es => return .tuple (← EvalM.suspendAll env es)
  | .lambda _ binder body => return .closure binder body env
  | .apply _ f a => do
    let operator ← eval env f
    let c ← EvalM.suspend env a
    match operator with
    | .closure binder body captured => enterBody eval forceCell captured binder c body
    | stuck => return .apply stuck c a.ty
  | .cond _ condition thenClause elseClause => do
    let v ← eval env condition
    match v.bool? with
    | some true => eval env thenClause
    | some false => eval env elseClause
    | none => return .cond v (← EvalM.suspend env thenClause) (← EvalM.suspend env elseClause)
  | .letIn _ binder init body => do
    enterBody eval forceCell env binder (← EvalM.suspend env init) body
  | .var _ v =>
    match env.get? v.level with
    | some c => forceCell c
    | none => return .var v
  | .call _ name a => call cx eval forceCell env name a
  | .test _ e p => do
    let v ← eval env e
    match ← decideMatch forceCell p v with
    | some verdict => return .literal (.bool verdict)
    | none => return .test v p e.ty
  | .command _ line => return .command line
  | .quote _ e => return .quote (← EvalM.suspend env e)
  | .splice _ e => do
    let v ← eval env e
    match v with
    | .quote c => forceCell c
    | stuck => return .splice stuck e.ty
  | .hole _ => EvalM.fail .unexpectedHole

end

/-- The value of a term in an environment. -/
def evaluate (cx : Context) : Nat → Evaluation
  | 0 => fun _ _ => EvalM.outOfFuel
  | fuel + 1 => evaluateWith cx (evaluate cx fuel) (force (evaluate cx fuel))

/-- Apply a function value to a cell. -/
def applyClosure (cx : Context) (fuel : Nat) (binder : Pattern) (body : Term) (captured : Env)
    (c : CellId) : EvalM Value :=
  enterBody (evaluate cx fuel) (force (evaluate cx fuel)) captured binder c body

end Stagecraft.Eval
