import Stagecraft.Eval.Value
import Stagecraft.Keyed

/-!
# Patterns against values

A pattern is used in two ways: a test decides whether a value has its form, and a binder takes a
value apart without testing it. A test of a value that is not known well enough stays undecided; a
binder of such a value binds its variables to projections out of it.
-/

namespace Stagecraft.Eval

open Staged (Pattern)

/-- The failure of a value that has no place at a pattern. -/
def Error.atPattern (v : Value) (p : Pattern) : Error := .illTyped v.head p.text

mutual

/-- Whether a pattern matches every value of its type. The answer is no at the first part that may
fail; a hole before that is an error. -/
def irrefutable : Pattern → Except Error Bool
  | .hole _ => .error .unexpectedHole
  | .var .. | .wildcard _ => .ok true
  | .int .. | .range .. | .list .. => .ok false
  | .tuple _ es => allIrrefutable es
  | .compound _ fields => allFieldsIrrefutable fields

/-- Whether several patterns match every value of their types. -/
def allIrrefutable : List Pattern → Except Error Bool
  | [] => .ok true
  | p :: ps => do if ← irrefutable p then allIrrefutable ps else return false

/-- Whether the fields of a record pattern match every value of their types. -/
def allFieldsIrrefutable : List (String × Pattern) → Except Error Bool
  | [] => .ok true
  | (_, p) :: rest => do if ← irrefutable p then allFieldsIrrefutable rest else return false

end

theorem allFieldsIrrefutable_eq (fields : List (String × Pattern)) :
    allFieldsIrrefutable fields = allIrrefutable (fields.map (·.2)) := by
  induction fields with
  | nil => rfl
  | cons f rest ih => rw [allFieldsIrrefutable, List.map_cons, allIrrefutable, ih]

/-- The cells of a record at the keys of a record pattern, if all keys are there. -/
def cellsAt? (fields : List (String × CellId)) : List (String × Pattern) → Option (List CellId)
  | [] => some []
  | (key, _) :: rest => do
    let c ← Keyed.find? key fields
    return c :: (← cellsAt? fields rest)

/-- The verdict of an integer test on a value: undecided on a neutral one. -/
def decideInt (p : Pattern) (accept : Int32 → Bool) (v : Value) : EvalM (Option Bool) :=
  match v with
  | .literal (.int n) => pure (some (accept n))
  | v => if v.isNeutral then pure none else EvalM.fail (.atPattern v p)

/-- What is known of a neutral value at a structured pattern. -/
def decideNeutral (p : Pattern) : EvalM (Option Bool) := do
  if ← EvalM.ofExcept (irrefutable p) then return some true else return none

section

variable (forceCell : CellId → EvalM Value)

mutual

/-- Whether a value matches a pattern, where that can be decided. -/
def decideMatch : Pattern → Value → EvalM (Option Bool)
  | .hole _, _ => EvalM.fail .unexpectedHole
  | .var .., _ | .wildcard _, _ => pure (some true)
  | .int info n, v => decideInt (.int info n) (· == n) v
  | .range info min max, v =>
    decideInt (.range info min max) (fun n => decide (min ≤ n) && decide (n ≤ max)) v
  | .tuple info ps, v =>
    if v.isNeutral then decideNeutral (.tuple info ps)
    else
      match v with
      | .tuple cells =>
        if ps.length = cells.length then decideAll true ps cells
        else EvalM.fail (.atPattern v (.tuple info ps))
      | _ => EvalM.fail (.atPattern v (.tuple info ps))
  | .list info ps, v =>
    if v.isNeutral then decideNeutral (.list info ps)
    else
      match v with
      | .list cells =>
        if ps.length = cells.length then decideAll true ps cells else pure (some false)
      | _ => EvalM.fail (.atPattern v (.list info ps))
  | .compound info fields, v =>
    if v.isNeutral then decideNeutral (.compound info fields)
    else
      match v with
      | .compound entries =>
        match cellsAt? entries fields with
        | some cells => decideFields true fields cells
        | none => EvalM.fail (.atPattern v (.compound info fields))
      | _ => EvalM.fail (.atPattern v (.compound info fields))

/-- Whether all parts match. A part that cannot fail is not forced; a definite mismatch wins over
what is undecided before it, and ends the test. -/
def decideAll (decided : Bool) : List Pattern → List CellId → EvalM (Option Bool)
  | p :: ps, c :: cs => do
    if ← EvalM.ofExcept (irrefutable p) then decideAll decided ps cs
    else
      let v ← forceCell c
      match ← decideMatch p v with
      | some false => return some false
      | some true => decideAll decided ps cs
      | none => decideAll false ps cs
  | _, _ => pure (if decided then some true else none)

/-- Whether all fields match, as `decideAll`. -/
def decideFields (decided : Bool) : List (String × Pattern) → List CellId → EvalM (Option Bool)
  | (_, p) :: rest, c :: cs => do
    if ← EvalM.ofExcept (irrefutable p) then decideFields decided rest cs
    else
      let v ← forceCell c
      match ← decideMatch p v with
      | some false => return some false
      | some true => decideFields decided rest cs
      | none => decideFields false rest cs
  | _, _ => pure (if decided then some true else none)

end

/-- The fields of a record pattern are tested like the elements of a sequence. -/
theorem decideFields_eq (decided : Bool) (fields : List (String × Pattern)) (cs : List CellId) :
    decideFields forceCell decided fields cs =
      decideAll forceCell decided (fields.map (·.2)) cs := by
  induction fields generalizing decided cs with
  | nil => rfl
  | cons f rest ih =>
    cases cs with
    | nil => rfl
    | cons c cs =>
      rw [decideFields, List.map_cons, decideAll]
      simp only [ih]

/-- Computations that bind variables as they go. The bindings made before a stop remain. -/
abbrev BindM := ExceptT (Stop Error) (StateT Env (StateM Store))

namespace BindM

/-- A computation on the store alone. -/
def ofEval {α : Type} (x : EvalM α) : BindM α := fun env => do
  let r ← x
  return (r, env)

/-- Bind a cell. -/
def bind (c : CellId) : BindM Unit := modify (·.bind c)

end BindM

/-- Bind variables of a binder to their projections out of a stuck value. -/
def bindProjections (p : Pattern) (init : Value) : List Var → BindM Unit
  | [] => pure ()
  | v :: vs => do
    BindM.bind (← BindM.ofEval (EvalM.alloc (.forced (.project p init v))))
    bindProjections p init vs

mutual

/-- Bind the variables of a pattern to the parts of a cell, in the order of `Pattern.binders`. A
variable takes its cell as it is; a pattern without variables does not look at its cell. -/
def destructure : Pattern → CellId → BindM Unit
  | .hole _, _ => BindM.ofEval (EvalM.fail .unexpectedHole)
  | .var .., c => BindM.bind c
  | .int .., _ | .range .., _ | .wildcard _, _ => pure ()
  | .tuple info ps, c => do
    let p : Pattern := .tuple info ps
    if p.binders.isEmpty then return
    let v ← BindM.ofEval (forceCell c)
    if v.isNeutral then bindProjections p v p.binders
    else
      match v with
      | .tuple cells | .list cells =>
        if ps.length = cells.length then destructureAll ps cells
        else BindM.ofEval (EvalM.fail (.atPattern v p))
      | _ => BindM.ofEval (EvalM.fail (.atPattern v p))
  | .list info ps, c => do
    let p : Pattern := .list info ps
    if p.binders.isEmpty then return
    let v ← BindM.ofEval (forceCell c)
    if v.isNeutral then bindProjections p v p.binders
    else
      match v with
      | .tuple cells | .list cells =>
        if ps.length = cells.length then destructureAll ps cells
        else BindM.ofEval (EvalM.fail (.atPattern v p))
      | _ => BindM.ofEval (EvalM.fail (.atPattern v p))
  | .compound info fields, c => do
    let p : Pattern := .compound info fields
    if p.binders.isEmpty then return
    let v ← BindM.ofEval (forceCell c)
    if v.isNeutral then bindProjections p v p.binders
    else
      match v with
      | .compound entries => destructureFields v entries fields
      | _ => BindM.ofEval (EvalM.fail (.atPattern v p))

/-- Bind the variables of several patterns, one cell each. -/
def destructureAll : List Pattern → List CellId → BindM Unit
  | p :: ps, c :: cs => do
    destructure p c
    destructureAll ps cs
  | _, _ => pure ()

/-- Bind the variables of the fields of a record pattern. A key that the record lacks is an error
at the pattern of that field. -/
def destructureFields (record : Value) (entries : List (String × CellId)) :
    List (String × Pattern) → BindM Unit
  | [] => pure ()
  | (key, p) :: rest => do
    match Keyed.find? key entries with
    | none => BindM.ofEval (EvalM.fail (.atPattern record p))
    | some c =>
      destructure p c
      destructureFields record entries rest

end

/-- The environment with the variables of a pattern bound to the parts of a cell. -/
def extend (env : Env) (p : Pattern) (c : CellId) : EvalM Env := fun s =>
  match (destructure forceCell p c).run env s with
  | ((.ok _, env'), s') => (.ok env', s')
  | ((.error e, _), s') => (.error e, s')

end

end Stagecraft.Eval
