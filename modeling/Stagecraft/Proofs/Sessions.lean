import Stagecraft.Proofs.Reevaluation

/-!
# Sessions with an evaluator

A client of the evaluator makes environments and cells, binds, forces, matches, applies and reads
back in any order, and goes on with whatever it got. A session is a sequence of such requests; its
answers say what the client can see. The same session can be held with the evaluator whose cells
keep their values, with the one that evaluates a cell at each look, and by name. The first two agree
with the third (`Agrees.answers_byNeed`, `Agrees.answers_byName`).
-/

namespace Stagecraft.Eval

open Staged (Ty Pattern Term)

namespace Value

/-- The cells that a value is made of. Those in the environment of a function do not count. -/
def parts : Value → List CellId
  | .array _ cs | .list cs | .tuple cs => cs
  | .compound fs => fs.map (·.2)
  | .ref c | .quote c | .apply _ c _ => [c]
  | .cond _ c c' => [c, c']
  | .literal _ | .closure .. | .var _ | .call .. | .test .. | .command _ | .splice .. | .project .. =>
    []

/-- The value that a neutral value waits for. -/
def inner : Value → List Value
  | .apply v _ _ | .cond v _ _ | .call _ v _ | .test v _ _ | .splice v _ | .project _ v _ => [v]
  | .literal _ | .array .. | .list _ | .compound _ | .ref _ | .tuple _ | .closure .. | .quote _
  | .var _ | .command _ => []

/-- The environment of a function. -/
def captured : Value → List Env
  | .closure _ _ env => [env]
  | _ => []

end Value

/-- What evaluators differ in: how terms are evaluated, cells are looked at and values read back. -/
structure Engine where
  eval : Evaluation
  look : CellId → EvalM Value
  shape : Value → Ty → EvalM Term

/-- The evaluator whose cells keep the values they were forced to. -/
def Engine.sharing (cx : Context) (fuel : Nat) : Engine :=
  ⟨evaluate cx fuel, force (evaluate cx fuel), readShape cx fuel⟩

/-- The evaluator that evaluates a suspended cell at each look. -/
def Engine.anew (cx : Context) (fuel : Nat) : Engine :=
  ⟨evaluateAnew cx fuel, forceAnew (evaluateAnew cx fuel), readShapeAnew cx fuel⟩

/-- The requests of a client. It names the environments, cells and values that it has by their
places in the order in which it got them. -/
inductive Request where
  /-- A cell that suspends a term in an environment. -/
  | suspend (env : Nat) (term : Term)
  /-- A cell that is made with a value. -/
  | ready (value : Nat)
  /-- The cell that an environment binds at a level. -/
  | get (env level : Nat)
  /-- What a value is made of: its cells, the value it waits for, the environment of a function. -/
  | takeApart (value : Nat)
  | bind (env cell : Nat)
  /-- Bind the variables of a pattern to themselves. -/
  | bindNeutral (env : Nat) (binder : Pattern)
  /-- Bind the variables of a pattern to the parts of a cell. Bindings before a failure remain. -/
  | destructure (env : Nat) (binder : Pattern) (cell : Nat)
  /-- The environment of a definition body. -/
  | enter (env : Nat)
  /-- The end of a scope: only the first bindings of an environment are left. -/
  | restore (env length : Nat)
  | evaluate (env : Nat) (term : Term)
  | force (cell : Nat)
  /-- Apply a function to a cell. -/
  | apply (function cell : Nat)
  /-- Whether a value matches a pattern. -/
  | decide (pattern : Pattern) (value : Nat)
  | readBack (value : Nat) (ty : Ty)

/-- What the client sees of an answer. -/
inductive Answer where
  /-- The request names something that the client does not have. -/
  | absent
  | done
  | env (length depth : Nat)
  | value (head : String) (neutral : Bool) (bool? : Option Bool) (int? : Option Int32)
  | verdict (matched : Option Bool)
  | term (t : Term)
  | failed (e : Error)

/-- What a client has. -/
structure Workspace where
  envs : List Env
  cells : List CellId
  values : List Value

/-- An answer, and what the client has then. -/
abbrev Reply := Answer × Workspace

namespace Workspace

/-- A client that starts has the empty environment. -/
def start : Workspace := ⟨[Env.empty], [], []⟩

/-- The reply that gives a cell to the client. -/
def giveCell (w : Workspace) (c : CellId) : Reply := (.done, { w with cells := w.cells ++ [c] })

/-- The reply that gives an environment to the client. -/
def giveEnv (w : Workspace) (env : Env) : Reply :=
  (.env env.cells.length env.depth, { w with envs := w.envs ++ [env] })

/-- The reply to a request for bindings. Those made before a failure remain. -/
def giveBound (w : Workspace) (env : Env) : Option Error → Reply
  | none => w.giveEnv env
  | some e => (.failed e, { w with envs := w.envs ++ [env] })

/-- The reply that gives a value to the client. -/
def giveValue (w : Workspace) : Except Error Value → Reply
  | .ok v =>
    (.value v.head v.isNeutral v.bool? v.int?, { w with values := w.values ++ [v] })
  | .error e => (.failed e, w)

/-- The reply that shows something to the client. -/
def give {α : Type} (w : Workspace) (see : α → Answer) : Except Error α → Reply
  | .ok a => (see a, w)
  | .error e => (.failed e, w)

/-- The reply to a request that names something, if the client has it. -/
def ask {α : Type} (w : Workspace) (found : Option α) (reply : α → EvalM Reply) : EvalM Reply :=
  match found with
  | some a => reply a
  | none => return (.absent, w)

end Workspace

namespace Engine

variable (e : Engine)

/-- The reply to a request. -/
def perform (w : Workspace) : Request → EvalM Reply
  | .suspend i t => w.ask w.envs[i]? fun env => do return w.giveCell (← EvalM.suspend env t)
  | .ready i => w.ask w.values[i]? fun v => do return w.giveCell (← EvalM.alloc (.forced v))
  | .get i level => w.ask w.envs[i]? fun env => w.ask (env.get? level) fun c => return w.giveCell c
  | .takeApart i => w.ask w.values[i]? fun v =>
    return (.done, ⟨w.envs ++ v.captured, w.cells ++ v.parts, w.values ++ v.inner⟩)
  | .bind i j => w.ask w.envs[i]? fun env => w.ask w.cells[j]? fun c => return w.giveEnv (env.bind c)
  | .bindNeutral i p => w.ask w.envs[i]? fun env => do
    return w.giveEnv (← EvalM.bindNeutral env p.binders)
  | .destructure i p j => w.ask w.envs[i]? fun env => w.ask w.cells[j]? fun c => do
    let (env', failure) ← (Eval.destructure e.look p c).attempt env
    return w.giveBound env' failure
  | .enter i => w.ask w.envs[i]? fun env => return w.giveEnv env.enter
  | .restore i length => w.ask w.envs[i]? fun env => return w.giveEnv (env.truncate length)
  | .evaluate i t => w.ask w.envs[i]? fun env => do return w.giveValue (← (e.eval env t).attempt)
  | .force i => w.ask w.cells[i]? fun c => do return w.giveValue (← (e.look c).attempt)
  | .apply i j => w.ask w.values[i]? fun f => w.ask w.cells[j]? fun c =>
    match f with
    | .closure binder body env => do
      return w.giveValue (← (enterBody e.eval e.look env binder c body).attempt)
    | _ => return (.absent, w)
  | .decide p i => w.ask w.values[i]? fun v => do
    return w.give .verdict (← (decideMatch e.look p v).attempt)
  | .readBack i ty => w.ask w.values[i]? fun v => do
    return w.give .term (← (readBackWith e.shape v ty).attempt)

/-- The answers to requests, up to the first one that has no answer. -/
def answers : List Request → Workspace → Store → List Answer
  | [], _, _ => []
  | r :: rs, w, s =>
    match e.perform w r s with
    | (.ok (a, w'), s') => a :: answers rs w' s'
    | (.error _, _) => []

/-- The answers of a session from its start. -/
def session (rs : List Request) : List Answer := e.answers rs .start .empty

end Engine

namespace ByName

/-- What a client has who evaluates by name. -/
structure Workspace where
  envs : List (List Thunk × Nat)
  thunks : List Thunk
  values : List Value

/-- An answer, and what the client has then. -/
abbrev Reply := Answer × Workspace

namespace Workspace

/-- A client that starts has the empty environment. -/
def start : Workspace := ⟨[([], 0)], [], []⟩

/-- The reply that gives a thunk to the client. -/
def giveThunk (w : Workspace) (θ : Thunk) : Reply := (.done, { w with thunks := w.thunks ++ [θ] })

/-- The reply that gives an environment to the client. -/
def giveEnv (w : Workspace) (ρ : List Thunk) (depth : Nat) : Reply :=
  (.env ρ.length depth, { w with envs := w.envs ++ [(ρ, depth)] })

/-- The reply to a request for bindings. Those made before a failure remain. -/
def giveBound (w : Workspace) (ρ : List Thunk) (depth : Nat) : Bound → Reply
  | (θs, none) => w.giveEnv (ρ ++ θs) depth
  | (θs, some e) => (.failed e, { w with envs := w.envs ++ [(ρ ++ θs, depth)] })

/-- The reply that gives a value to the client. -/
def giveValue (w : Workspace) : Except Error Value → Reply
  | .ok v =>
    (.value v.head v.isNeutral v.seen.bool? v.seen.int?, { w with values := w.values ++ [v] })
  | .error e => (.failed e, w)

/-- The reply that shows something to the client. -/
def give {α : Type} (w : Workspace) (see : α → Answer) : Except Error α → Reply
  | .ok a => (see a, w)
  | .error e => (.failed e, w)

/-- The reply to a request that names something, if the client has it. -/
def ask {α : Type} (w : Workspace) (found : Option α) (reply : α → Result Reply) : Result Reply :=
  match found with
  | some a => reply a
  | none => return (.absent, w)

end Workspace

section

variable (cx : Context) (fuel : Nat)

/-- The reply to a request. -/
def perform (w : Workspace) : Request → Result Reply
  | .suspend i t => w.ask w.envs[i]? fun e => return w.giveThunk (.delayed e.1 e.2 t)
  | .ready i => w.ask w.values[i]? fun v => return w.giveThunk (.known v)
  | .get i level => w.ask w.envs[i]? fun e => w.ask e.1[level]? fun θ => return w.giveThunk θ
  | .takeApart i => w.ask w.values[i]? fun v =>
    return (.done, ⟨w.envs ++ v.captured, w.thunks ++ v.parts, w.values ++ v.inner⟩)
  | .bind i j => w.ask w.envs[i]? fun e => w.ask w.thunks[j]? fun θ =>
    return w.giveEnv (e.1 ++ [θ]) e.2
  | .bindNeutral i p => w.ask w.envs[i]? fun e =>
    return w.giveEnv (e.1 ++ neutrals p.binders) e.2
  | .destructure i p j => w.ask w.envs[i]? fun e => w.ask w.thunks[j]? fun θ => do
    return w.giveBound e.1 e.2 (← bindings (force (evaluate cx fuel)) p θ)
  | .enter i => w.ask w.envs[i]? fun e => return w.giveEnv [] (e.2 + 1)
  | .restore i length => w.ask w.envs[i]? fun e => return w.giveEnv (e.1.take length) e.2
  | .evaluate i t => w.ask w.envs[i]? fun e => do
    return w.giveValue (← (evaluate cx fuel e.1 e.2 t).attempt)
  | .force i => w.ask w.thunks[i]? fun θ => do
    return w.giveValue (← (force (evaluate cx fuel) θ).attempt)
  | .apply i j => w.ask w.values[i]? fun f => w.ask w.thunks[j]? fun θ =>
    match f with
    | .closure binder body ρ depth => do
      return w.giveValue (← (enterBody (evaluate cx fuel) ρ depth binder θ body).attempt)
    | _ => return (.absent, w)
  | .decide p i => w.ask w.values[i]? fun v => do
    return w.give .verdict (← (decideMatch (force (evaluate cx fuel)) p v).attempt)
  | .readBack i ty => w.ask w.values[i]? fun v => do
    return w.give .term (← (readBackWith (readShape cx fuel) v ty).attempt)

/-- The answers to requests, up to the first one that has no answer. -/
def answers : List Request → Workspace → List Answer
  | [], _ => []
  | r :: rs, w =>
    match perform cx fuel w r with
    | .ok (a, w') => a :: answers rs w'
    | .error _ => []

end

/-! ## Sessions by need and by name -/

section

variable {Φ Φ' : Chart} {q : ℚ} {v : Value} {u : Eval.Value}

theorem FieldParts.snd {fs : List (String × Thunk)} {gs : List (String × CellId)}
    (h : FieldParts Φ q fs gs) : Parts Φ q (fs.map (·.2)) (gs.map (·.2)) := by
  induction h with
  | nil => exact .nil
  | cons hf _ ih => exact .cons hf.2 ih

theorem Depicts.parts (h : Depicts Φ q v u) : Parts Φ q v.parts u.parts := by
  cases h with
  | literal | closure | var | call | test | command | splice | project => exact .nil
  | array h | list h | tuple h => exact h
  | compound h => exact h.snd
  | ref h | quote h | apply _ h => exact .cons h .nil
  | cond _ h h' => exact .cons h (.cons h' .nil)

theorem Depicts.inner (h : Depicts Φ q v u) : List.Forall₂ (Depicts Φ q) v.inner u.inner := by
  cases h with
  | literal | array | list | compound | ref | tuple | closure | quote | var | command => exact .nil
  | apply h | cond h | call h | test h | splice h | project h => exact .cons h .nil

theorem Depicts.captured (h : Depicts Φ q v u) :
    List.Forall₂ (fun e env => EnvStands Φ q e.1 e.2 env) v.captured u.captured := by
  cases h with
  | closure h => exact .cons h .nil
  | _ => exact .nil

/-- A client by need and a client by name who have the same. -/
structure WorkspaceStands (Φ : Chart) (q : ℚ) (w : Workspace) (w' : Eval.Workspace) : Prop where
  envs : List.Forall₂ (fun e env => EnvStands Φ q e.1 e.2 env) w.envs w'.envs
  cells : Parts Φ q w.thunks w'.cells
  values : List.Forall₂ (Depicts Φ q) w.values w'.values

variable {w : Workspace} {w' : Eval.Workspace}

theorem WorkspaceStands.mono (h : WorkspaceStands Φ q w w') (hle : Φ ≤ Φ') :
    WorkspaceStands Φ' q w w' where
  envs := h.envs.imp fun _ _ henv => henv.mono hle le_rfl
  cells := h.cells.mono hle le_rfl
  values := h.values.imp fun _ _ hv => hv.mono hle le_rfl

/-- The same reply, up to how cells and values are represented. -/
def Replies (Φ : Chart) (q : ℚ) (a : Eval.Reply) (b : Reply) : Prop :=
  a.1 = b.1 ∧ WorkspaceStands Φ q b.2 a.2

namespace WorkspaceStands

variable (h : WorkspaceStands Φ q w w')

include h

theorem giveCell {θ : Thunk} {c : CellId} (hc : Stands Φ q θ c) :
    Replies Φ q (w'.giveCell c) (w.giveThunk θ) :=
  ⟨rfl, h.envs, List.rel_append h.cells (.cons hc .nil), h.values⟩

theorem addEnv {ρ : List Thunk} {depth : Nat} {env : Env} (henv : EnvStands Φ q ρ depth env) :
    WorkspaceStands Φ q { w with envs := w.envs ++ [(ρ, depth)] }
      { w' with envs := w'.envs ++ [env] } :=
  ⟨List.rel_append h.envs (.cons henv .nil), h.cells, h.values⟩

theorem giveEnv {ρ : List Thunk} {depth : Nat} {env : Env} (henv : EnvStands Φ q ρ depth env) :
    Replies Φ q (w'.giveEnv env) (w.giveEnv ρ depth) := by
  refine ⟨?_, h.addEnv henv⟩
  change Answer.env env.cells.items.length env.depth = .env ρ.length depth
  rw [henv.cells.length_eq, henv.depth]

theorem giveBound {ρ : List Thunk} {depth : Nat} {env : Env} {θs : List Thunk} {cs : List CellId}
    (henv : EnvStands Φ q ρ depth env) (hcs : Parts Φ q θs cs) (failure : Option Error) :
    Replies Φ q (w'.giveBound (env.bindAll cs) failure) (w.giveBound ρ depth (θs, failure)) := by
  have henv' : EnvStands Φ q (ρ ++ θs) depth (env.bindAll cs) :=
    ⟨henv.depth, List.rel_append henv.cells hcs⟩
  cases failure with
  | none => exact h.giveEnv henv'
  | some e => exact ⟨rfl, h.addEnv henv'⟩

theorem giveValue {x : Except Error Eval.Value} {y : Except Error Value}
    (hxy : EndsAs (fun u v => Depicts Φ q v u) x y) :
    Replies Φ q (w'.giveValue x) (w.giveValue y) := by
  cases hxy with
  | failed => exact ⟨rfl, h⟩
  | ok hu =>
    refine ⟨?_, h.envs, h.cells, List.rel_append h.values (.cons hu .nil)⟩
    rw [Eval.Workspace.giveValue, Workspace.giveValue, hu.head, hu.isNeutral, hu.bool?, hu.int?]

theorem give {α : Type} (see : α → Answer) {x y : Except Error α} (hxy : EndsAs (· = ·) x y) :
    Replies Φ q (w'.give see x) (w.give see y) := by
  cases hxy with
  | failed => exact ⟨rfl, h⟩
  | ok hab =>
    subst hab
    exact ⟨rfl, h⟩

theorem ask {m : Mode} {cx : Context} {α β : Type} {x : Option α} {y : Option β}
    {Q : β → α → Prop} {f : α → EvalM Eval.Reply} {g : Nat → β → Result Reply}
    (hfound : Option.Rel Q y x)
    (hf : ∀ a b, Q b a → Tracks m cx Φ q (f a) (fun k => g k b) fun Φ' => Replies Φ' q) :
    Tracks m cx Φ q (w'.ask x f) (fun k => w.ask y (g k)) fun Φ' => Replies Φ' q := by
  cases hfound with
  | none => exact .ret ⟨rfl, h⟩
  | some hab => exact hf _ _ hab

end WorkspaceStands

/-- An engine that goes as evaluation by name does. -/
structure Agrees (m : Mode) (cx : Context) (e : Engine) : Prop where
  eval : Follows m cx e.eval
  look : Looks m cx e.look
  shape : Reads m cx e.shape

section

variable {m : Mode} {cx : Context} {e : Engine}

theorem sharing_byNeed (n : Nat) : Agrees .byNeed cx (.sharing cx n) :=
  ⟨evaluate_byNeed n, (evaluate_byNeed n).force, readShape_byNeed n⟩

theorem sharing_byName (n : Nat) : Agrees (.byName n) cx (.sharing cx n) :=
  ⟨evaluate_byName n, (evaluate_byName n).force, readShape_byName n⟩

theorem anew_byNeed (n : Nat) : Agrees .byNeed cx (.anew cx n) :=
  ⟨evaluateAnew_byNeed n, (evaluateAnew_byNeed n).forceAnew, readShapeAnew_byNeed n⟩

theorem anew_byName (n : Nat) : Agrees (.byName n) cx (.anew cx n) :=
  ⟨evaluateAnew_byName n, (evaluateAnew_byName n).forceAnew, readShapeAnew_byName n⟩

/-- Each request is answered as by name, and leaves the client with the same. -/
theorem Agrees.perform (he : Agrees m cx e) (h : WorkspaceStands Φ q w w') (r : Request) :
    Tracks m cx Φ q (e.perform w' r) (fun k => perform cx k w r) fun Φ' => Replies Φ' q := by
  cases r with
  | suspend i t =>
    refine h.ask (getElem?_rel h.envs i) fun env _ henv => ?_
    exact .made (Makes.suspend henv t) fun c Φ' hle hc => (h.mono hle).giveCell hc
  | ready i =>
    refine h.ask (getElem?_rel h.values i) fun u v hu => ?_
    exact .made (Makes.known hu) fun c Φ' hle hc => (h.mono hle).giveCell hc
  | get i level =>
    refine h.ask (getElem?_rel h.envs i) fun env _ henv => ?_
    exact h.ask (getElem?_rel henv.cells level) fun c _ hc => .ret (h.giveCell hc)
  | takeApart i =>
    refine h.ask (getElem?_rel h.values i) fun u v hu => .ret ⟨rfl, ?_⟩
    exact ⟨List.rel_append h.envs hu.captured, List.rel_append h.cells hu.parts,
      List.rel_append h.values hu.inner⟩
  | bind i j =>
    refine h.ask (getElem?_rel h.envs i) fun env _ henv => ?_
    refine h.ask (getElem?_rel h.cells j) fun c _ hc => .ret (h.giveEnv ?_)
    exact ⟨henv.depth, List.rel_append henv.cells (.cons hc .nil)⟩
  | bindNeutral i p =>
    refine h.ask (getElem?_rel h.envs i) fun env _ henv => ?_
    exact .made (Makes.bindNeutral _ henv) fun env' Φ' hle henv' => (h.mono hle).giveEnv henv'
  | destructure i p j =>
    refine h.ask (getElem?_rel h.envs i) fun env _ henv => ?_
    refine h.ask (getElem?_rel h.cells j) fun c _ hc => ?_
    refine Tracks.bind (destructure_tracks he.look p hc) ?_
    rintro ⟨_, failure⟩ ⟨θs, _⟩ Φ₁ hle ⟨rfl, cs, rfl, hcs⟩
    exact .ret ((h.mono hle).giveBound (henv.mono hle le_rfl) hcs failure)
  | enter i =>
    refine h.ask (getElem?_rel h.envs i) fun env _ henv => .ret (h.giveEnv ?_)
    exact ⟨congrArg (· + 1) henv.depth, .nil⟩
  | restore i length =>
    refine h.ask (getElem?_rel h.envs i) fun env _ henv => .ret (h.giveEnv ?_)
    exact ⟨henv.depth, List.forall₂_take length henv.cells⟩
  | evaluate i t =>
    refine h.ask (getElem?_rel h.envs i) fun env _ henv => ?_
    exact (he.eval t henv).attempt.bind fun x y Φ₁ hle hxy => .ret ((h.mono hle).giveValue hxy)
  | force i =>
    refine h.ask (getElem?_rel h.cells i) fun c θ hc => ?_
    exact (he.look hc).attempt.bind fun x y Φ₁ hle hxy => .ret ((h.mono hle).giveValue hxy)
  | apply i j =>
    refine h.ask (getElem?_rel h.values i) fun f f' hf => ?_
    refine h.ask (getElem?_rel h.cells j) fun c θ hc => ?_
    cases hf with
    | closure henv =>
      have hbody := enterBody_tracks he.eval he.look henv hc
      exact (hbody _ _).attempt.bind fun x y Φ₁ hle hxy => .ret ((h.mono hle).giveValue hxy)
    | _ => exact .ret ⟨rfl, h⟩
  | decide p i =>
    refine h.ask (getElem?_rel h.values i) fun u v hu => ?_
    exact (decideMatch_tracks he.look p hu).attempt.bind fun x y Φ₁ hle hxy =>
      .ret ((h.mono hle).give _ hxy)
  | readBack i ty =>
    refine h.ask (getElem?_rel h.values i) fun u v hu => ?_
    exact (readBackWith_tracks he.shape hu ty).attempt.bind fun x y Φ₁ hle hxy =>
      .ret ((h.mono hle).give _ hxy)

/-- Answers of an engine are those by name with enough fuel. -/
theorem Agrees.answers_byNeed (he : Agrees .byNeed cx e) (rs : List Request) {s : Store}
    (hs : Charted cx Φ q s) (h : WorkspaceStands Φ q w w') :
    ∃ n, ∀ k, n ≤ k → e.answers rs w' s <+: answers cx k rs w := by
  induction rs generalizing Φ w w' s with
  | nil => exact ⟨0, fun _ _ => List.nil_prefix⟩
  | cons r rs ih =>
    have hstep := he.perform h r s hs
    rw [Engine.answers]
    rcases hrun : e.perform w' r s with ⟨stop | ⟨a, w₁'⟩, s₁⟩
    · exact ⟨0, fun _ _ => List.nil_prefix⟩
    · rw [hrun] at hstep
      rcases hstep with hexc | ⟨o, Φ₁, ⟨n, hn⟩, hmoves, hmatch, -⟩
      · cases hexc
      · cases hmatch with
        | @ok _ b hreply =>
          obtain ⟨a', w₁⟩ := b
          obtain ⟨heq, hw₁⟩ := hreply
          dsimp only at heq hw₁
          subst heq
          obtain ⟨n', hn'⟩ := ih hmoves.charted hw₁
          refine ⟨max n n', fun k hk => ?_⟩
          have hreplies : ByName.perform cx k w r = .ok (a, w₁) := hn k (by omega)
          rw [answers, hreplies]
          exact List.cons_prefix_cons.2 ⟨rfl, hn' k (by omega)⟩

/-- Answers by name are those of an engine with the same fuel. -/
theorem Agrees.answers_byName {n : Nat} (he : Agrees (.byName n) cx e) (rs : List Request)
    {s : Store} (hs : Charted cx Φ q s) (h : WorkspaceStands Φ q w w') :
    answers cx n rs w <+: e.answers rs w' s := by
  induction rs generalizing Φ w w' s with
  | nil => exact List.nil_prefix
  | cons r rs ih =>
    rw [answers]
    rcases hrun : ByName.perform cx n w r with stop | ⟨a, w₁⟩
    · exact List.nil_prefix
    · rcases he.perform h r s hs with hexc | ⟨o, Φ₁, hset, hmoves, hmatch, -⟩
      · have hout : ByName.perform cx n w r = .error .outOfFuel := hexc
        rw [hrun] at hout
        cases hout
      · obtain rfl : ByName.perform cx n w r = o := hset
        rw [hrun] at hmatch
        rw [Engine.answers]
        rcases hrun' : e.perform w' r s with ⟨r', s₁⟩
        rw [hrun'] at hmatch hmoves
        cases hmatch with
        | @ok b _ hreply =>
          obtain ⟨a', w₁'⟩ := b
          obtain ⟨heq, hw₁⟩ := hreply
          dsimp only at heq hw₁
          subst heq
          exact List.cons_prefix_cons.2 ⟨rfl, ih hmoves.charted hw₁⟩

end

end

/-- At its start a client by need and a client by name have the same. -/
theorem workspaceStands_start {Φ : Chart} {q : ℚ} :
    WorkspaceStands Φ q .start Eval.Workspace.start :=
  ⟨.cons ⟨rfl, .nil⟩ .nil, .nil, .nil⟩

end ByName

end Stagecraft.Eval
