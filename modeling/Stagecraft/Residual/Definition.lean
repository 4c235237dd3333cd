import Stagecraft.Eval.ReadBack
import Stagecraft.Residual.CodeDepth

/-!
# Residual definitions

The residual program is what is left to do at run time. A definition belongs to it if its interface
has code depth zero. In its body every splice outside quotes is evaluated at once and replaced by
the code it yields; a binding of code is gone once the term around it has code depth zero.

The environment holds a cell for every variable in scope, so that levels mean the same to the
evaluator as in the term. Run-time variables are bound to themselves, compile-time ones to their
values.
-/

namespace Stagecraft.Residual

open Staged (Ty Pattern Term Definition)
open Eval (Context Env EvalM Store)

/-- Computations that evaluate as they go. -/
abbrev ResidualM := ExceptT (Stop Error) (StateM Store)

namespace ResidualM

/-- Stop with a failure. -/
def fail {α : Type} (e : Error) : ResidualM α := throw (.failed e)

/-- An evaluation, whose failures are failures of staging. -/
def ofEval {α : Type} (x : EvalM α) : ResidualM α := fun s =>
  match x s with
  | (.ok a, s') => (.ok a, s')
  | (.error e, s') => (.error (e.map .eval), s')

/-- An answer that does not look at the store. -/
def ofExcept {α : Type} : Except Error α → ResidualM α
  | .ok a => pure a
  | .error e => fail e

end ResidualM

/-- A binder must not contain a hole. -/
def checkBinder (p : Pattern) : ResidualM Unit :=
  if p.hasHole then ResidualM.fail .unexpectedHole else pure ()

section

variable (cx : Context) (fuel : Nat)

mutual

/-- The term with its splices run. -/
def residualTerm (env : Env) : Term → ResidualM Term
  | .literal ty l => return .literal ty l
  | .var ty v => return .var ty v
  | .command ty line => return .command ty line
  | .array ty kind es => return .array ty kind (← residualTerms env es)
  | .list ty es => return .list ty (← residualTerms env es)
  | .compound ty fields => return .compound ty (← residualFields env fields)
  | .ref ty e => return .ref ty (← residualTerm env e)
  | .tuple ty es => return .tuple ty (← residualTerms env es)
  | .lambda ty binder body => do
    checkBinder binder
    let inner ← ResidualM.ofEval (EvalM.bindNeutral env binder.binders)
    return .lambda ty binder (← residualTerm inner body)
  | .apply ty f a => do
    let f ← residualTerm env f
    return .apply ty f (← residualTerm env a)
  | .cond ty c a b => do
    let c ← residualTerm env c
    let a ← residualTerm env a
    return .cond ty c a (← residualTerm env b)
  | .letIn ty binder init body => do
    checkBinder binder
    let init ← residualTerm env init
    if (← ResidualM.ofExcept (codeDepth cx.definitions binder.ty)) = 0 then
      let inner ← ResidualM.ofEval (EvalM.bindNeutral env binder.binders)
      return .letIn ty binder init (← residualTerm inner body)
    else
      let c ← ResidualM.ofEval (EvalM.suspend env init)
      let inner ← ResidualM.ofEval (Eval.extend (Eval.force (Eval.evaluate cx fuel)) env binder c)
      let body ← residualTerm inner body
      -- every use of the binding has been spliced away
      if (← ResidualM.ofExcept (codeDepth cx.definitions ty)) = 0 then return body
      else return .letIn ty binder init body
  | .call ty name a => return .call ty name (← residualTerm env a)
  | .test ty e p => do
    checkBinder p
    return .test ty (← residualTerm env e) p
  -- splices under a quote belong to the term that splices the quote
  | .quote ty e => return .quote ty e
  | .splice ty e => ResidualM.ofEval do
    let v ← Eval.evaluate cx fuel env (.splice ty e)
    Eval.readBack cx fuel v ty
  | .hole _ => ResidualM.fail .unexpectedHole

/-- Several terms with their splices run, in order. -/
def residualTerms (env : Env) : List Term → ResidualM (List Term)
  | [] => pure []
  | t :: ts => do
    let t ← residualTerm env t
    return t :: (← residualTerms env ts)

/-- The fields of a record with their splices run, in order. -/
def residualFields (env : Env) : List (String × Term) → ResidualM (List (String × Term))
  | [] => pure []
  | (key, t) :: rest => do
    let t ← residualTerm env t
    return (key, t) :: (← residualFields env rest)

end

/-- The body of a function with its splices run, in the scope of its binder. -/
def residualBody (binder : Pattern) (body : Term) : ResidualM Term := do
  checkBinder binder
  residualTerm cx fuel (← ResidualM.ofEval (EvalM.bindNeutral Env.empty binder.binders)) body

end

/-- What is left of a function at run time: nothing of one that is inlined or static, or whose
interface mentions code. -/
def residualFunction? (cx : Context) (fuel : Nat) (f : Staged.Function) :
    ResidualM (Option Staged.Function) := do
  if f.has .static || f.has .inlined then return none
  if (← ResidualM.ofExcept (codeDepth cx.definitions f.binder.ty)) ≠ 0 then return none
  if (← ResidualM.ofExcept (codeDepth cx.definitions f.result)) ≠ 0 then return none
  if f.has .builtin then return some f
  return some { f with body := ← residualBody cx fuel f.binder f.body }

/-- What is left of a definition at run time. Resources and type aliases stay as they are. -/
def residual? (cx : Context) (fuel : Nat) (d : Definition) :
    Except (Stop Error) (Option Definition) :=
  match d with
  | .function f =>
    (((residualFunction? cx fuel f).run.run .empty).1).map fun g => g.map .function
  | d => .ok (some d)

end Stagecraft.Residual
