import Stagecraft.Eval.Evaluate

/-!
# Reading values back into terms

Read-back is directed by the expected type. A refined type gives its literal whatever the value
looks like, type aliases are looked through, and a union takes the first alternative at which the
value reads back. A function is read back by evaluating its body under its own binder.
-/

namespace Stagecraft.Eval

open Staged (Ty Pattern Term Table)

/-- The failure of a value that has no place at a type. -/
def Error.atType (v : Value) (ty : Ty) : Error := .illTyped v.head ty.text

/-- Follow type aliases for at most `fuel` looks at a type. -/
def resolveWithin (table : Table) : Nat → Ty → Except Error Ty
  | 0, ty => .error (.illTyped "alias" ty.text)
  | fuel + 1, .alias name =>
    match table.alias? name with
    | some body => resolveWithin table fuel body
    | none => .ok (.alias name)
  | _ + 1, .hole => .error .unexpectedHole
  | _ + 1, ty => .ok ty

/-- The type behind type aliases; a chain longer than the table is a cycle. -/
def resolve (table : Table) (ty : Ty) : Except Error Ty :=
  resolveWithin table (table.size + 1) ty

section

variable (cx : Context) (eval : Evaluation) (forceCell : CellId → EvalM Value)
  (shape : Value → Ty → EvalM Term)

/-- A value read back at a type: the literal of a refined type, or the form that `shape` gives. -/
def readBackWith (v : Value) (ty : Ty) : EvalM Term := do
  match ty.singleton? with
  | some l => return .literal ty l
  | none => return (← shape v ty).withTy ty

/-- A cell read back at a type. -/
def readCell (c : CellId) (ty : Ty) : EvalM Term := do
  readBackWith shape (← forceCell c) ty

/-- Cells read back at one type. -/
def readCells (ty : Ty) : List CellId → EvalM (List Term)
  | [] => pure []
  | c :: cs => do
    let t ← readCell forceCell shape c ty
    return t :: (← readCells ty cs)

/-- Cells read back at one type each. -/
def readTuple : List CellId → List Ty → EvalM (List Term)
  | c :: cs, ty :: tys => do
    let t ← readCell forceCell shape c ty
    return t :: (← readTuple cs tys)
  | _, _ => pure []

/-- Fields read back at the types of their keys; a key without a type is an error. -/
def readFields (onMissing : Error) (tys : List (String × Ty)) :
    List (String × CellId) → EvalM (List (String × Term))
  | [] => pure []
  | (key, c) :: rest => do
    match Keyed.find? key tys with
    | none => EvalM.fail onMissing
    | some ty =>
      let t ← readCell forceCell shape c ty
      return (key, t) :: (← readFields onMissing tys rest)

/-- The first alternative at which the value reads back. -/
def readUnion (onNone : Error) (v : Value) : List Ty → EvalM Term
  | [] => EvalM.fail onNone
  | alternative :: rest => EvalM.orElse (shape v alternative) (readUnion onNone v rest)

/-- The form of a value at a type that is not refined, with `shape` for the values inside and
`forceCell` for the cells. -/
def shapeWith (v : Value) (ty : Ty) : EvalM Term := do
  let view ← EvalM.ofExcept (resolve cx.definitions ty)
  match v, view with
  | .literal l, _ => return .literal ty l
  | .array kind cells, _ =>
    return .array ty kind (← readCells forceCell shape (Ty.ofElement kind) cells)
  | .list cells, .list element => return .list ty (← readCells forceCell shape element cells)
  | .compound cells, .compound tys =>
    return .compound ty (← readFields forceCell shape (.atType v ty) tys cells)
  | .ref c, .ref element => return .ref ty (← readCell forceCell shape c element)
  | .tuple cells, .tuple tys =>
    if cells.length = tys.length then return .tuple ty (← readTuple forceCell shape cells tys)
    else EvalM.fail (.atType v ty)
  | .closure binder body env, .function _ result => do
    let inner ← EvalM.bindNeutral env binder.binders
    let b ← eval inner body
    return .lambda ty binder (← readBackWith shape b result)
  | .quote c, .code element => return .quote ty (← readCell forceCell shape c element)
  | .var x, _ => return .var ty x
  | .apply operator c argumentTy, _ =>
    let f ← readBackWith shape operator (.function argumentTy ty)
    return .apply ty f (← readCell forceCell shape c argumentTy)
  | .cond condition thenClause elseClause, _ =>
    let c ← readBackWith shape condition .bool
    let a ← readCell forceCell shape thenClause ty
    return .cond ty c a (← readCell forceCell shape elseClause ty)
  | .call name argument argumentTy, _ =>
    return .call ty name (← readBackWith shape argument argumentTy)
  | .test scrutinee p scrutineeTy, _ =>
    return .test ty (← readBackWith shape scrutinee scrutineeTy) p
  | .command line, _ => return .command ty line
  | .splice element codeTy, _ => return .splice ty (← readBackWith shape element codeTy)
  | .project binder init x, _ =>
    return .letIn ty binder (← readBackWith shape init binder.ty) (.var ty x)
  | v, .union alternatives => readUnion shape (.atType v ty) v alternatives
  | v, _ => EvalM.fail (.atType v ty)

end

/-- The form of a value at a type that is not refined. -/
def readShape (cx : Context) : Nat → Value → Ty → EvalM Term
  | 0 => fun _ _ => EvalM.outOfFuel
  | fuel + 1 =>
    shapeWith cx (evaluate cx fuel) (force (evaluate cx fuel)) (readShape cx fuel)

/-- A value read back at a type. -/
def readBack (cx : Context) (fuel : Nat) (v : Value) (ty : Ty) : EvalM Term :=
  readBackWith (readShape cx fuel) v ty

/-- Evaluate a term without bindings and read it back at a type. -/
def normalizeAt (cx : Context) (fuel : Nat) (term : Term) (ty : Ty) : Except (Stop Error) Term :=
  let run : EvalM Term := do
    let v ← evaluate cx fuel Env.empty term
    readBack cx fuel v ty
  (run.run.run .empty).1

/-- Evaluate a term without bindings and read it back at its own type. -/
def normalize (cx : Context) (fuel : Nat) (term : Term) : Except (Stop Error) Term :=
  normalizeAt cx fuel term term.ty

end Stagecraft.Eval
