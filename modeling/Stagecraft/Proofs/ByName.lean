import Stagecraft.Eval.ReadBack

/-!
# Evaluation by name

The evaluator without its store: a part of a value is the suspended term itself, and it is evaluated
again at every look. Values are finite trees, so what a term means can be said and compared without
naming cells. Sharing gives the same answers (`normalizeAt_eq_iff`).
-/

namespace Stagecraft.Eval.ByName

open Staged (Ty Pattern Term Table)

mutual

/-- Values whose parts are thunks. The forms from `var` on are neutral. -/
inductive Value where
  | literal (value : Literal)
  | array (kind : ArrayKind) (elements : List Thunk)
  | list (elements : List Thunk)
  | compound (fields : List (String × Thunk))
  | ref (element : Thunk)
  | tuple (elements : List Thunk)
  | closure (binder : Pattern) (body : Term) (env : List Thunk) (depth : Nat)
  | quote (element : Thunk)
  | var (v : Var)
  | apply (operator : Value) (argument : Thunk) (argumentTy : Ty)
  | cond (condition : Value) (thenClause elseClause : Thunk)
  | call (name : DefName) (argument : Value) (argumentTy : Ty)
  | test (scrutinee : Value) (pattern : Pattern) (scrutineeTy : Ty)
  | command (line : String)
  | splice (element : Value) (codeTy : Ty)
  | project (binder : Pattern) (init : Value) (v : Var)

/-- A term that waits in its environment, or a value that is known already. -/
inductive Thunk where
  | delayed (env : List Thunk) (depth : Nat) (term : Term)
  | known (value : Value)

end

instance : Inhabited Value := ⟨.command ""⟩

namespace Value

/-- Whether the value waits for an unknown one. -/
def isNeutral : Value → Bool
  | .literal _ | .array .. | .list _ | .compound _ | .ref _ | .tuple _ | .closure .. | .quote _ =>
    false
  | .var _ | .apply .. | .cond .. | .call .. | .test .. | .command _ | .splice .. | .project .. =>
    true

/-- The name of the head form. -/
def head : Value → String
  | .literal _ => "literal"
  | .array .. => "array"
  | .list _ => "list"
  | .compound _ => "compound"
  | .ref _ => "ref"
  | .tuple _ => "tuple"
  | .closure .. => "function"
  | .quote _ => "code"
  | .var _ => "variable"
  | .apply .. => "application"
  | .cond .. => "conditional"
  | .call .. => "call"
  | .test .. => "pattern test"
  | .command _ => "command"
  | .splice .. => "splice"
  | .project .. => "projection"

/-- What a native function sees of a value: its literal, if it is one. -/
def seen : Value → Eval.Value
  | .literal l => .literal l
  | _ => .command ""

/-- The thunks that a value is made of. Those in the environment of a function do not count. -/
def parts : Value → List Thunk
  | .array _ θs | .list θs | .tuple θs => θs
  | .compound fs => fs.map (·.2)
  | .ref θ | .quote θ | .apply _ θ _ => [θ]
  | .cond _ θ θ' => [θ, θ']
  | .literal _ | .closure .. | .var _ | .call .. | .test .. | .command _ | .splice .. | .project .. =>
    []

/-- The value that a neutral value waits for. -/
def inner : Value → List Value
  | .apply v _ _ | .cond v _ _ | .call _ v _ | .test v _ _ | .splice v _ | .project _ v _ => [v]
  | .literal _ | .array .. | .list _ | .compound _ | .ref _ | .tuple _ | .closure .. | .quote _
  | .var _ | .command _ => []

/-- The environment of a function. -/
def captured : Value → List (List Thunk × Nat)
  | .closure _ _ ρ depth => [(ρ, depth)]
  | _ => []

/-- The elements of what a sequence pattern takes apart. -/
def elements? : Value → Option (List Thunk)
  | .list θs | .tuple θs => some θs
  | _ => none

theorem parts_of_elements? {v : Value} {θs : List Thunk} (h : v.elements? = some θs) :
    v.parts = θs := by
  cases v with
  | list | tuple =>
    cases h
    rfl
  | _ => cases h

/-- The parts of a pair. -/
def pair? : Value → Option (Thunk × Thunk)
  | .tuple [x, y] => some (x, y)
  | _ => none

end Value

/-- Answers of computations without a store. -/
abbrev Result := Except (Stop Error)

namespace Result

variable {α : Type}

/-- A failure. -/
def fail (e : Error) : Result α := .error (.failed e)

/-- No answer yet. -/
def outOfFuel : Result α := .error .outOfFuel

/-- An answer that no evaluation takes part in. -/
def ofExcept : Except Error α → Result α
  | .ok a => .ok a
  | .error e => fail e

theorem ofExcept_ok {x : Except Error α} {a : α} : ofExcept x = .ok a ↔ x = .ok a := by
  cases x with
  | ok => simp only [ofExcept, Except.ok.injEq]
  | error => exact ⟨nofun, nofun⟩

/-- The first answer, or the second one where the first is a failure. -/
def orElse (first second : Result α) : Result α :=
  match first with
  | .error (.failed _) => second
  | outcome => outcome

/-- How a computation ends, as a result. Running out of fuel is no end. -/
def attempt : Result α → Result (Except Error α)
  | .ok a => .ok (.ok a)
  | .error (.failed e) => .ok (.error e)
  | .error .outOfFuel => outOfFuel

end Result

/-- A way to evaluate a term in an environment, at a depth of unfolding. -/
abbrev Evaluation := List Thunk → Nat → Term → Result Value

/-- The value of a thunk. -/
def force (eval : Evaluation) : Thunk → Result Value
  | .delayed ρ depth t => eval ρ depth t
  | .known v => .ok v

/-- The failure of a value that has no place at a type. -/
def atType (v : Value) (ty : Ty) : Error := .illTyped v.head ty.text

/-- The failure of a value that has no place at a pattern. -/
def atPattern (v : Value) (p : Pattern) : Error := .illTyped v.head p.text

/-- The parts of a record at the keys of a record pattern, if all keys are there. -/
def partsAt? (fields : List (String × Thunk)) : List (String × Pattern) → Option (List Thunk)
  | [] => some []
  | (key, _) :: rest => do
    let θ ← Keyed.find? key fields
    return θ :: (← partsAt? fields rest)

/-- The verdict of an integer test on a value: undecided on a neutral one. -/
def decideInt (p : Pattern) (accept : Int32 → Bool) (v : Value) : Result (Option Bool) :=
  match v with
  | .literal (.int n) => .ok (some (accept n))
  | v => if v.isNeutral then .ok none else Result.fail (atPattern v p)

/-- What is known of a neutral value at a structured pattern. -/
def decideNeutral (p : Pattern) : Result (Option Bool) := do
  if ← Result.ofExcept (irrefutable p) then return some true else return none

section

variable (look : Thunk → Result Value)

mutual

/-- Whether a value matches a pattern, where that can be decided. -/
def decideMatch : Pattern → Value → Result (Option Bool)
  | .hole _, _ => Result.fail .unexpectedHole
  | .var .., _ | .wildcard _, _ => .ok (some true)
  | .int info n, v => decideInt (.int info n) (· == n) v
  | .range info min max, v =>
    decideInt (.range info min max) (fun n => decide (min ≤ n) && decide (n ≤ max)) v
  | .tuple info ps, v =>
    if v.isNeutral then decideNeutral (.tuple info ps)
    else
      match v with
      | .tuple parts =>
        if ps.length = parts.length then decideAll true ps parts
        else Result.fail (atPattern v (.tuple info ps))
      | _ => Result.fail (atPattern v (.tuple info ps))
  | .list info ps, v =>
    if v.isNeutral then decideNeutral (.list info ps)
    else
      match v with
      | .list parts =>
        if ps.length = parts.length then decideAll true ps parts else .ok (some false)
      | _ => Result.fail (atPattern v (.list info ps))
  | .compound info fields, v =>
    if v.isNeutral then decideNeutral (.compound info fields)
    else
      match v with
      | .compound entries =>
        match partsAt? entries fields with
        | some parts => decideFields true fields parts
        | none => Result.fail (atPattern v (.compound info fields))
      | _ => Result.fail (atPattern v (.compound info fields))

/-- Whether all parts match. -/
def decideAll (decided : Bool) : List Pattern → List Thunk → Result (Option Bool)
  | p :: ps, θ :: θs => do
    if ← Result.ofExcept (irrefutable p) then decideAll decided ps θs
    else
      let v ← look θ
      match ← decideMatch p v with
      | some false => return some false
      | some true => decideAll decided ps θs
      | none => decideAll false ps θs
  | _, _ => .ok (if decided then some true else none)

/-- Whether all fields match. -/
def decideFields (decided : Bool) : List (String × Pattern) → List Thunk → Result (Option Bool)
  | (_, p) :: rest, θ :: θs => do
    if ← Result.ofExcept (irrefutable p) then decideFields decided rest θs
    else
      let v ← look θ
      match ← decideMatch p v with
      | some false => return some false
      | some true => decideFields decided rest θs
      | none => decideFields false rest θs
  | _, _ => .ok (if decided then some true else none)

end

/-- The fields of a record pattern are tested like the elements of a sequence. -/
theorem decideFields_eq (decided : Bool) (fields : List (String × Pattern)) (θs : List Thunk) :
    decideFields look decided fields θs = decideAll look decided (fields.map (·.2)) θs := by
  induction fields generalizing decided θs with
  | nil => rfl
  | cons f rest ih =>
    cases θs with
    | nil => rfl
    | cons θ θs =>
      rw [decideFields, List.map_cons, decideAll]
      simp only [ih]

/-- The projections of the variables of a binder out of a stuck value. -/
def projections (p : Pattern) (init : Value) : List Thunk :=
  p.binders.map fun v => .known (.project p init v)

mutual

/-- What the variables of a pattern are bound to. -/
def destructure : Pattern → Thunk → Result (List Thunk)
  | .hole _, _ => Result.fail .unexpectedHole
  | .var .., θ => .ok [θ]
  | .int .., _ | .range .., _ | .wildcard _, _ => .ok []
  | .tuple info ps, θ => do
    let p : Pattern := .tuple info ps
    if p.binders.isEmpty then return []
    let v ← look θ
    if v.isNeutral then return projections p v
    else
      match v with
      | .tuple parts | .list parts =>
        if ps.length = parts.length then destructureAll ps parts
        else Result.fail (atPattern v p)
      | _ => Result.fail (atPattern v p)
  | .list info ps, θ => do
    let p : Pattern := .list info ps
    if p.binders.isEmpty then return []
    let v ← look θ
    if v.isNeutral then return projections p v
    else
      match v with
      | .tuple parts | .list parts =>
        if ps.length = parts.length then destructureAll ps parts
        else Result.fail (atPattern v p)
      | _ => Result.fail (atPattern v p)
  | .compound info fields, θ => do
    let p : Pattern := .compound info fields
    if p.binders.isEmpty then return []
    let v ← look θ
    if v.isNeutral then return projections p v
    else
      match v with
      | .compound entries => destructureFields v entries fields
      | _ => Result.fail (atPattern v p)

/-- What the variables of several patterns are bound to, one part each. -/
def destructureAll : List Pattern → List Thunk → Result (List Thunk)
  | p :: ps, θ :: θs => do
    let first ← destructure p θ
    return first ++ (← destructureAll ps θs)
  | _, _ => .ok []

/-- What the variables of the fields of a record pattern are bound to. -/
def destructureFields (record : Value) (entries : List (String × Thunk)) :
    List (String × Pattern) → Result (List Thunk)
  | [] => .ok []
  | (key, p) :: rest => do
    match Keyed.find? key entries with
    | none => Result.fail (atPattern record p)
    | some θ =>
      let first ← destructure p θ
      return first ++ (← destructureFields record entries rest)

end

/-- What a structured pattern does with a thunk: nothing if it has no variables. Otherwise it looks,
projects its variables out of a stuck value, and takes any other value apart. -/
def opened (p : Pattern) (apart : Value → Result (List Thunk)) (θ : Thunk) :
    Result (List Thunk) := do
  if p.binders.isEmpty then return []
  let v ← look θ
  if v.isNeutral then return projections p v else apart v

/-- A sequence taken apart by as many patterns. -/
def elementsApart (p : Pattern) (ps : List Pattern) (v : Value) : Result (List Thunk) :=
  match v.elements? with
  | some θs =>
    if ps.length = θs.length then destructureAll look ps θs else Result.fail (atPattern v p)
  | none => Result.fail (atPattern v p)

/-- A record taken apart by patterns for some of its fields. -/
def fieldsApart (p : Pattern) (fields : List (String × Pattern)) (v : Value) :
    Result (List Thunk) :=
  match v with
  | .compound entries => destructureFields look v entries fields
  | _ => Result.fail (atPattern v p)

theorem elementsApart_eq (p : Pattern) (ps : List Pattern) :
    elementsApart look p ps = fun v => match v with
      | .tuple θs | .list θs =>
        if ps.length = θs.length then destructureAll look ps θs else Result.fail (atPattern v p)
      | _ => Result.fail (atPattern v p) := by
  funext v
  cases v <;> rfl

theorem destructure_tuple (info : Staged.PatternInfo) (ps : List Pattern) :
    destructure look (.tuple info ps) =
      opened look (.tuple info ps) (elementsApart look (.tuple info ps) ps) := by
  rw [elementsApart_eq]
  rfl

theorem destructure_list (info : Staged.PatternInfo) (ps : List Pattern) :
    destructure look (.list info ps) =
      opened look (.list info ps) (elementsApart look (.list info ps) ps) := by
  rw [elementsApart_eq]
  rfl

theorem destructure_compound (info : Staged.PatternInfo) (fields : List (String × Pattern)) :
    destructure look (.compound info fields) =
      opened look (.compound info fields) (fieldsApart look (.compound info fields) fields) :=
  rfl

/-- The thunks that the variables of a binder were bound to, and the failure that ended the binding,
if there was one. -/
abbrev Bound := List Thunk × Option Error

/-- Bind further variables, unless the first ones failed. -/
def Bound.andThen (first rest : Result Bound) : Result Bound := do
  match ← first with
  | (θs, none) =>
    let (θs', failure) ← rest
    return (θs ++ θs', failure)
  | stopped => return stopped

mutual

/-- As `destructure`, with the bindings that were made before a failure. -/
def bindings : Pattern → Thunk → Result Bound
  | .hole _, _ => .ok ([], some .unexpectedHole)
  | .var .., θ => .ok ([θ], none)
  | .int .., _ | .range .., _ | .wildcard _, _ => .ok ([], none)
  | .tuple info ps, θ => do
    let p : Pattern := .tuple info ps
    if p.binders.isEmpty then return ([], none)
    match ← Result.attempt (look θ) with
    | .error e => return ([], some e)
    | .ok v =>
      if v.isNeutral then return (projections p v, none)
      else
        match v with
        | .tuple parts | .list parts =>
          if ps.length = parts.length then bindingsOfAll ps parts
          else return ([], some (atPattern v p))
        | _ => return ([], some (atPattern v p))
  | .list info ps, θ => do
    let p : Pattern := .list info ps
    if p.binders.isEmpty then return ([], none)
    match ← Result.attempt (look θ) with
    | .error e => return ([], some e)
    | .ok v =>
      if v.isNeutral then return (projections p v, none)
      else
        match v with
        | .tuple parts | .list parts =>
          if ps.length = parts.length then bindingsOfAll ps parts
          else return ([], some (atPattern v p))
        | _ => return ([], some (atPattern v p))
  | .compound info fields, θ => do
    let p : Pattern := .compound info fields
    if p.binders.isEmpty then return ([], none)
    match ← Result.attempt (look θ) with
    | .error e => return ([], some e)
    | .ok v =>
      if v.isNeutral then return (projections p v, none)
      else
        match v with
        | .compound entries => bindingsOfFields v entries fields
        | _ => return ([], some (atPattern v p))

/-- As `destructureAll`, with the bindings that were made before a failure. -/
def bindingsOfAll : List Pattern → List Thunk → Result Bound
  | p :: ps, θ :: θs => Bound.andThen (bindings p θ) (bindingsOfAll ps θs)
  | _, _ => .ok ([], none)

/-- As `destructureFields`, with the bindings that were made before a failure. -/
def bindingsOfFields (record : Value) (entries : List (String × Thunk)) :
    List (String × Pattern) → Result Bound
  | [] => .ok ([], none)
  | (key, p) :: rest =>
    match Keyed.find? key entries with
    | none => .ok ([], some (atPattern record p))
    | some θ => Bound.andThen (bindings p θ) (bindingsOfFields record entries rest)

end

/-- Apply a native function. The binary ones take a pair and look at both components. -/
def runNative (n : Native) (argument : Value) : Result (Option Value) :=
  match n, argument.pair? with
  | .boolNot, _ => .ok (argument.seen.bool?.map fun b => .literal (.bool (!b)))
  | n, some (x, y) => do
    let a ← look x
    let b ← look y
    return (n.onPair a.seen b.seen).map .literal
  | _, none => .ok none

end

section

variable (cx : Context) (eval : Evaluation)

/-- Evaluate a body with the variables of its binder bound to the parts of a thunk. -/
def enterBody (ρ : List Thunk) (depth : Nat) (binder : Pattern) (θ : Thunk) (body : Term) :
    Result Value := do
  eval (ρ ++ (← destructure (force eval) binder θ)) depth body

/-- A call to a top-level definition. -/
def call (ρ : List Thunk) (depth : Nat) (name : DefName) (argument : Term) : Result Value := do
  match cx.definitions.find? name with
  | some (.function f) =>
    if f.has .builtin then
      match Keyed.find? name cx.natives with
      | none => Result.fail (.missingBuiltin name)
      | some native =>
        let v ← eval ρ depth argument
        match ← runNative (force eval) native v with
        | some result => return result
        | none => return .call name v argument.ty
    else if cx.unfoldLimit ≤ depth then
      return .call name (← eval ρ depth argument) argument.ty
    else enterBody eval [] (depth + 1) f.binder (.delayed ρ depth argument) f.body
  | some (.resource _) | some (.alias _) => Result.fail (.notAFunction name)
  | none => return .call name (← eval ρ depth argument) argument.ty

/-- Evaluate a term, with `eval` for the terms inside and the parts looked at. -/
def evaluateWith (ρ : List Thunk) (depth : Nat) : Term → Result Value
  | .literal _ l => .ok (.literal l)
  | .array _ kind es => .ok (.array kind (es.map (.delayed ρ depth)))
  | .list _ es => .ok (.list (es.map (.delayed ρ depth)))
  | .compound _ fields => .ok (.compound (fields.map fun f => (f.1, .delayed ρ depth f.2)))
  | .ref _ e => .ok (.ref (.delayed ρ depth e))
  | .tuple _ es => .ok (.tuple (es.map (.delayed ρ depth)))
  | .lambda _ binder body => .ok (.closure binder body ρ depth)
  | .apply _ f a => do
    match ← eval ρ depth f with
    | .closure binder body captured d =>
      enterBody eval captured d binder (.delayed ρ depth a) body
    | stuck => return .apply stuck (.delayed ρ depth a) a.ty
  | .cond _ condition thenClause elseClause => do
    let v ← eval ρ depth condition
    match v.seen.bool? with
    | some true => eval ρ depth thenClause
    | some false => eval ρ depth elseClause
    | none => return .cond v (.delayed ρ depth thenClause) (.delayed ρ depth elseClause)
  | .letIn _ binder init body => enterBody eval ρ depth binder (.delayed ρ depth init) body
  | .var _ v =>
    match ρ[v.level]? with
    | some θ => force eval θ
    | none => .ok (.var v)
  | .call _ name a => call cx eval ρ depth name a
  | .test _ e p => do
    let v ← eval ρ depth e
    match ← decideMatch (force eval) p v with
    | some verdict => return .literal (.bool verdict)
    | none => return .test v p e.ty
  | .command _ line => .ok (.command line)
  | .quote _ e => .ok (.quote (.delayed ρ depth e))
  | .splice _ e => do
    match ← eval ρ depth e with
    | .quote θ => force eval θ
    | stuck => return .splice stuck e.ty
  | .hole _ => Result.fail .unexpectedHole

end

/-- The value of a term in an environment. -/
def evaluate (cx : Context) : Nat → Evaluation
  | 0 => fun _ _ _ => Result.outOfFuel
  | fuel + 1 => evaluateWith cx (evaluate cx fuel)

/-- Variables that stand for themselves. -/
def neutrals (vars : List Var) : List Thunk := vars.map fun v => .known (.var v)

section

variable (cx : Context) (eval : Evaluation) (shape : Value → Ty → Result Term)

/-- A value read back at a type: the literal of a refined type, or the form that `shape` gives. -/
def readBackWith (v : Value) (ty : Ty) : Result Term := do
  match ty.singleton? with
  | some l => return .literal ty l
  | none => return (← shape v ty).withTy ty

/-- A thunk read back at a type. -/
def readThunk (θ : Thunk) (ty : Ty) : Result Term := do
  readBackWith shape (← force eval θ) ty

/-- Thunks read back at one type. -/
def readThunks (ty : Ty) : List Thunk → Result (List Term)
  | [] => .ok []
  | θ :: θs => do
    let t ← readThunk eval shape θ ty
    return t :: (← readThunks ty θs)

/-- Thunks read back at one type each. -/
def readTuple : List Thunk → List Ty → Result (List Term)
  | θ :: θs, ty :: tys => do
    let t ← readThunk eval shape θ ty
    return t :: (← readTuple θs tys)
  | _, _ => .ok []

/-- Fields read back at the types of their keys; a key without a type is an error. -/
def readFields (onMissing : Error) (tys : List (String × Ty)) :
    List (String × Thunk) → Result (List (String × Term))
  | [] => .ok []
  | (key, θ) :: rest => do
    match Keyed.find? key tys with
    | none => Result.fail onMissing
    | some ty =>
      let t ← readThunk eval shape θ ty
      return (key, t) :: (← readFields onMissing tys rest)

/-- The first alternative at which the value reads back. -/
def readUnion (onNone : Error) (v : Value) : List Ty → Result Term
  | [] => Result.fail onNone
  | alternative :: rest => Result.orElse (shape v alternative) (readUnion onNone v rest)

/-- The form of a value at a type that is not refined. -/
def shapeWith (v : Value) (ty : Ty) : Result Term := do
  let view ← Result.ofExcept (resolve cx.definitions ty)
  match v, view with
  | .literal l, _ => return .literal ty l
  | .array kind parts, _ =>
    return .array ty kind (← readThunks eval shape (Ty.ofElement kind) parts)
  | .list parts, .list element => return .list ty (← readThunks eval shape element parts)
  | .compound parts, .compound tys =>
    return .compound ty (← readFields eval shape (atType v ty) tys parts)
  | .ref θ, .ref element => return .ref ty (← readThunk eval shape θ element)
  | .tuple parts, .tuple tys =>
    if parts.length = tys.length then return .tuple ty (← readTuple eval shape parts tys)
    else Result.fail (atType v ty)
  | .closure binder body ρ depth, .function _ result => do
    let b ← eval (ρ ++ neutrals binder.binders) depth body
    return .lambda ty binder (← readBackWith shape b result)
  | .quote θ, .code element => return .quote ty (← readThunk eval shape θ element)
  | .var x, _ => return .var ty x
  | .apply operator θ argumentTy, _ =>
    let f ← readBackWith shape operator (.function argumentTy ty)
    return .apply ty f (← readThunk eval shape θ argumentTy)
  | .cond condition thenClause elseClause, _ =>
    let c ← readBackWith shape condition .bool
    let a ← readThunk eval shape thenClause ty
    return .cond ty c a (← readThunk eval shape elseClause ty)
  | .call name argument argumentTy, _ =>
    return .call ty name (← readBackWith shape argument argumentTy)
  | .test scrutinee p scrutineeTy, _ =>
    return .test ty (← readBackWith shape scrutinee scrutineeTy) p
  | .command line, _ => return .command ty line
  | .splice element codeTy, _ => return .splice ty (← readBackWith shape element codeTy)
  | .project binder init x, _ =>
    return .letIn ty binder (← readBackWith shape init binder.ty) (.var ty x)
  | v, .union alternatives => readUnion shape (atType v ty) v alternatives
  | v, _ => Result.fail (atType v ty)

end

/-- The form of a value at a type that is not refined. -/
def readShape (cx : Context) : Nat → Value → Ty → Result Term
  | 0 => fun _ _ => Result.outOfFuel
  | fuel + 1 => shapeWith cx (evaluate cx fuel) (readShape cx fuel)

/-- A value read back at a type. -/
def readBack (cx : Context) (fuel : Nat) (v : Value) (ty : Ty) : Result Term :=
  readBackWith (readShape cx fuel) v ty

/-- Evaluate a term without bindings and read it back at a type. -/
def normalizeAt (cx : Context) (fuel : Nat) (term : Term) (ty : Ty) : Result Term := do
  readBack cx fuel (← evaluate cx fuel [] 0 term) ty

end Stagecraft.Eval.ByName
