import Mathlib.Order.Filter.AtTopBot.Basic
import Stagecraft.Proofs.Adequacy
import Stagecraft.Proofs.RunTimePrograms

/-!
# What staging leaves of a term

Staging rewrites a term and evaluates its splices as it goes, on one store. `Leaves` says what comes
out without the store and without fuel: the variables in scope are bound to thunks, a splice is what
its value by name reads back to. A run that succeeds gives what is left (`residualTerm_finds`), and
with enough fuel the run succeeds (`eventually_stages`).
-/

namespace Stagecraft.Residual

open Staged (Ty Pattern Term Definition)
open Eval (Context Env EvalM Store)
open Eval.ByName (Thunk Result Chart Charted Moves EnvStands Tracks Makes ComesTo neutrals)

/-- A term in an environment has a value, which reads back at the type of the term to another
term. -/
def Normalizes (cx : Context) (ρ : List Thunk) (t r : Term) : Prop :=
  ComesTo (fun k => do Eval.ByName.readBack cx k (← Eval.ByName.evaluate cx k ρ 0 t) t.ty) (.ok r)

/-- A binder of a thunk binds its variables to other thunks. -/
def Binds (cx : Context) (p : Pattern) (θ : Thunk) (θs : List Thunk) : Prop :=
  ComesTo (fun k =>
    Eval.ByName.destructure (Eval.ByName.force (Eval.ByName.evaluate cx k)) p θ) (.ok θs)

mutual

/-- What staging leaves of a term in an environment. -/
inductive Leaves (cx : Context) : List Thunk → Term → Term → Prop
  | literal {ρ ty l} : Leaves cx ρ (.literal ty l) (.literal ty l)
  | var {ρ ty v} : Leaves cx ρ (.var ty v) (.var ty v)
  | command {ρ ty line} : Leaves cx ρ (.command ty line) (.command ty line)
  | quote {ρ ty e} : Leaves cx ρ (.quote ty e) (.quote ty e)
  | array {ρ ty kind es rs} : LeavesAll cx ρ es rs →
      Leaves cx ρ (.array ty kind es) (.array ty kind rs)
  | list {ρ ty es rs} : LeavesAll cx ρ es rs → Leaves cx ρ (.list ty es) (.list ty rs)
  | compound {ρ ty fs gs} : LeavesFields cx ρ fs gs →
      Leaves cx ρ (.compound ty fs) (.compound ty gs)
  | ref {ρ ty e r} : Leaves cx ρ e r → Leaves cx ρ (.ref ty e) (.ref ty r)
  | tuple {ρ ty es rs} : LeavesAll cx ρ es rs → Leaves cx ρ (.tuple ty es) (.tuple ty rs)
  | lambda {ρ ty p b r} : p.hasHole = false → Leaves cx (ρ ++ neutrals p.binders) b r →
      Leaves cx ρ (.lambda ty p b) (.lambda ty p r)
  | apply {ρ ty f a f' a'} : Leaves cx ρ f f' → Leaves cx ρ a a' →
      Leaves cx ρ (.apply ty f a) (.apply ty f' a')
  | cond {ρ ty c a b c' a' b'} : Leaves cx ρ c c' → Leaves cx ρ a a' → Leaves cx ρ b b' →
      Leaves cx ρ (.cond ty c a b) (.cond ty c' a' b')
  /-- A let of run-time values. -/
  | letIn {ρ ty p i b i' b'} : p.hasHole = false → Leaves cx ρ i i' →
      codeDepth cx.definitions p.ty = .ok 0 → Leaves cx (ρ ++ neutrals p.binders) b b' →
        Leaves cx ρ (.letIn ty p i b) (.letIn ty p i' b')
  /-- A let of code in a term of a code type. -/
  | letCode {ρ ty p i b i' b' n m θs} : p.hasHole = false → Leaves cx ρ i i' →
      codeDepth cx.definitions p.ty = .ok (n + 1) → Binds cx p (.delayed ρ 0 i') θs →
        Leaves cx (ρ ++ θs) b b' → codeDepth cx.definitions ty = .ok (m + 1) →
          Leaves cx ρ (.letIn ty p i b) (.letIn ty p i' b')
  /-- A let of code in a term of another type is gone. -/
  | letGone {ρ ty p i b i' b' n θs} : p.hasHole = false → Leaves cx ρ i i' →
      codeDepth cx.definitions p.ty = .ok (n + 1) → Binds cx p (.delayed ρ 0 i') θs →
        Leaves cx (ρ ++ θs) b b' → codeDepth cx.definitions ty = .ok 0 →
          Leaves cx ρ (.letIn ty p i b) b'
  | call {ρ ty name a a'} : Leaves cx ρ a a' → Leaves cx ρ (.call ty name a) (.call ty name a')
  | test {ρ ty e p e'} : p.hasHole = false → Leaves cx ρ e e' →
      Leaves cx ρ (.test ty e p) (.test ty e' p)
  | splice {ρ ty e r} : Normalizes cx ρ (.splice ty e) r → Leaves cx ρ (.splice ty e) r

/-- What staging leaves of several terms. -/
inductive LeavesAll (cx : Context) : List Thunk → List Term → List Term → Prop
  | nil {ρ} : LeavesAll cx ρ [] []
  | cons {ρ e es r rs} : Leaves cx ρ e r → LeavesAll cx ρ es rs →
      LeavesAll cx ρ (e :: es) (r :: rs)

/-- What staging leaves of the fields of a record. -/
inductive LeavesFields (cx : Context) :
    List Thunk → List (String × Term) → List (String × Term) → Prop
  | nil {ρ} : LeavesFields cx ρ [] []
  | cons {ρ key e fs r gs} : Leaves cx ρ e r → LeavesFields cx ρ fs gs →
      LeavesFields cx ρ ((key, e) :: fs) ((key, r) :: gs)

end

/-! ## Computations on charted stores -/

section

variable {α β γ : Type} (cx : Context) (Φ : Chart) (q : ℚ)

/-- What a computation on a charted store answers, if it does, is of some kind. -/
def Finds (x : ResidualM α) (Q : Chart → α → Prop) : Prop :=
  ∀ s, Charted cx Φ q s → ∀ a s', x s = (.ok a, s') → ∃ Φ', Moves cx q Φ s Φ' s' ∧ Q Φ' a

/-- A computation on a charted store has an answer of some kind. -/
def Reaches (x : ResidualM α) (Q : Chart → α → Prop) : Prop :=
  ∀ s, Charted cx Φ q s → ∃ a s' Φ', x s = (.ok a, s') ∧ Moves cx q Φ s Φ' s' ∧ Q Φ' a

end

section

variable {α β γ : Type} {cx : Context} {Φ : Chart} {q : ℚ}

theorem ResidualM.ofEval_ok {x : EvalM α} {a : α} {s s' : Store} :
    ResidualM.ofEval x s = (.ok a, s') ↔ x s = (.ok a, s') := by
  rcases hx : x s with ⟨e | b, s''⟩
  · have hrun : ResidualM.ofEval x s = (.error (e.map .eval), s'') := by
      rw [ResidualM.ofEval, hx]
    rw [hrun]
    constructor <;> rintro ⟨⟩
  · have hrun : ResidualM.ofEval x s = (.ok b, s'') := by
      rw [ResidualM.ofEval, hx]
    rw [hrun]
    constructor <;> rintro ⟨⟩ <;> rfl

namespace Finds

theorem ret {a : α} {Q : Chart → α → Prop} (h : Q Φ a) : Finds cx Φ q (pure a) Q := by
  rintro s hs _ _ ⟨⟩
  exact ⟨Φ, .refl hs, h⟩

theorem imp {x : ResidualM α} {Q R : Chart → α → Prop} (h : Finds cx Φ q x Q)
    (hR : ∀ Φ' a, Q Φ' a → R Φ' a) : Finds cx Φ q x R := by
  intro s hs a s' hrun
  obtain ⟨Φ', hmoves, hQ⟩ := h s hs a s' hrun
  exact ⟨Φ', hmoves, hR Φ' a hQ⟩

theorem fail {e : Error} {Q : Chart → α → Prop} : Finds cx Φ q (ResidualM.fail e) Q := by
  rintro s hs _ _ ⟨⟩

theorem bind {x : ResidualM α} {f : α → ResidualM β} {Q : Chart → α → Prop}
    {R : Chart → β → Prop} (hx : Finds cx Φ q x Q)
    (hf : ∀ a Φ', Φ ≤ Φ' → Q Φ' a → Finds cx Φ' q (f a) R) : Finds cx Φ q (x >>= f) R := by
  intro s hs b s'' hrun
  rw [ResidualM.run_bind] at hrun
  rcases hxs : x s with ⟨e | a, s'⟩
  · rw [hxs] at hrun
    cases hrun
  · rw [hxs] at hrun
    obtain ⟨Φ', hmoves, hQ⟩ := hx s hs a s' hxs
    obtain ⟨Φ'', hmoves', hR⟩ := hf a Φ' hmoves.le hQ s' hmoves.charted b s'' hrun
    exact ⟨Φ'', hmoves.trans hmoves', hR⟩

/-- An evaluation whose answer is what answers by name come to. -/
theorem ofEval {x : EvalM α} {y : Nat → Result β} {R : Chart → α → β → Prop}
    (hx : Tracks .byNeed cx Φ q x y R) :
    Finds cx Φ q (ResidualM.ofEval x) fun Φ' a => ∃ b, ComesTo y (.ok b) ∧ R Φ' a b := by
  intro s hs a s' hrun
  rw [ResidualM.ofEval_ok] at hrun
  rcases hx s hs with hexc | ⟨o, Φ', hset, hmoves, hmatch, -⟩
  · have hout : (x s).1 = .error .outOfFuel := hexc
    rw [hrun] at hout
    cases hout
  · rw [hrun] at hmoves hmatch
    cases hmatch with
    | ok hR => exact ⟨Φ', hmoves, _, hset, hR⟩

theorem makes {x : EvalM α} {Q : Chart → α → Prop} (hx : Makes cx Φ q x Q) :
    Finds cx Φ q (ResidualM.ofEval x) Q := by
  intro s hs a s' hrun
  rw [ResidualM.ofEval_ok] at hrun
  obtain ⟨b, Φ', hb, hmoves, hQ, -⟩ := hx s hs
  rw [hrun] at hb hmoves
  cases hb
  exact ⟨Φ', hmoves, hQ⟩

theorem checkBinder {p : Pattern} :
    Finds cx Φ q (checkBinder p) fun _ _ => p.hasHole = false := by
  unfold Residual.checkBinder
  cases hp : p.hasHole with
  | true => exact .fail
  | false => exact .ret rfl

theorem ofExcept (x : Except Error α) :
    Finds cx Φ q (ResidualM.ofExcept x) fun _ a => x = .ok a := by
  cases x with
  | ok a => exact .ret rfl
  | error e => exact .fail

end Finds

namespace Reaches

theorem ret {a : α} {Q : Chart → α → Prop} (h : Q Φ a) : Reaches cx Φ q (pure a) Q :=
  fun s hs => ⟨a, s, Φ, rfl, .refl hs, h⟩

theorem bind {x : ResidualM α} {f : α → ResidualM β} {Q : Chart → α → Prop}
    {R : Chart → β → Prop} (hx : Reaches cx Φ q x Q)
    (hf : ∀ a Φ', Φ ≤ Φ' → Q Φ' a → Reaches cx Φ' q (f a) R) : Reaches cx Φ q (x >>= f) R := by
  intro s hs
  obtain ⟨a, s', Φ', hxs, hmoves, hQ⟩ := hx s hs
  obtain ⟨b, s'', Φ'', hfs, hmoves', hR⟩ := hf a Φ' hmoves.le hQ s' hmoves.charted
  refine ⟨b, s'', Φ'', ?_, hmoves.trans hmoves', hR⟩
  rw [ResidualM.run_bind, hxs]
  exact hfs

/-- A computation that has one answer, followed by one that goes on from it. -/
theorem seq {x : ResidualM α} {f : α → ResidualM β} {a : α} {R : Chart → β → Prop}
    (hx : Reaches cx Φ q x fun _ b => b = a)
    (hf : ∀ Φ', Φ ≤ Φ' → Reaches cx Φ' q (f a) R) : Reaches cx Φ q (x >>= f) R :=
  hx.bind fun _ Φ' hle heq => heq ▸ hf Φ' hle

/-- An evaluation that has an answer by name with the same fuel. -/
theorem ofEval {n : Nat} {x : EvalM α} {y : Nat → Result β} {b : β} {R : Chart → α → β → Prop}
    (hx : Tracks (.byName n) cx Φ q x y R) (hy : y n = .ok b) :
    Reaches cx Φ q (ResidualM.ofEval x) fun Φ' a => R Φ' a b := by
  intro s hs
  rcases hx s hs with hexc | ⟨o, Φ', hset, hmoves, hmatch, -⟩
  · have hout : y n = .error .outOfFuel := hexc
    rw [hy] at hout
    cases hout
  · have ho : y n = o := hset
    rw [hy] at ho
    subst ho
    rcases hxs : x s with ⟨e | a, s'⟩
    · rw [hxs] at hmatch
      cases hmatch
    · rw [hxs] at hmatch hmoves
      cases hmatch with
      | ok hR => exact ⟨a, s', Φ', ResidualM.ofEval_ok.2 hxs, hmoves, hR⟩

theorem makes {x : EvalM α} {Q : Chart → α → Prop} (hx : Makes cx Φ q x Q) :
    Reaches cx Φ q (ResidualM.ofEval x) Q := by
  intro s hs
  obtain ⟨a, Φ', ha, hmoves, hQ, -⟩ := hx s hs
  exact ⟨a, (x s).2, Φ', ResidualM.ofEval_ok.2 (Prod.ext ha rfl), hmoves, hQ⟩

theorem checkBinder {p : Pattern} (h : p.hasHole = false) :
    Reaches cx Φ q (checkBinder p) fun _ u => u = () := by
  rw [Residual.checkBinder, h]
  exact .ret rfl

theorem ofExcept {x : Except Error α} {a : α} (h : x = .ok a) :
    Reaches cx Φ q (ResidualM.ofExcept x) fun _ b => b = a := by
  subst h
  exact .ret rfl

end Reaches

end

/-! ## Evaluations on the way -/

section

variable {m : Eval.ByName.Mode} {cx : Context} {n : Nat} {Φ : Chart} {q : ℚ} {ρ : List Thunk}
  {env : Env}

open Eval.ByName (Follows Reads) in
/-- A splice evaluated and read back at its type. -/
theorem splice_tracks (heval : Follows m cx (Eval.evaluate cx n))
    (hread : Reads m cx (Eval.readShape cx n)) (henv : EnvStands Φ q ρ 0 env) (t : Term) :
    Tracks m cx Φ q
      (do
        let v ← Eval.evaluate cx n env t
        Eval.readBack cx n v t.ty)
      (fun k => do Eval.ByName.readBack cx k (← Eval.ByName.evaluate cx k ρ 0 t) t.ty)
      fun _ a b => a = b :=
  (heval t henv).bind fun _ _ _ _ hu => Eval.ByName.readBackWith_tracks hread hu t.ty

end

/-! ## Staging on the store -/

section

variable {cx : Context} {n : Nat} {q : ℚ}

open Eval.ByName (Follows Makes extend_tracks evaluate_byNeed readShape_byNeed)

mutual

/-- What staging gives is what it leaves. -/
theorem residualTerm_finds : ∀ (t : Term) {Φ : Chart} {ρ : List Thunk} {env : Env},
    EnvStands Φ q ρ 0 env → Finds cx Φ q (residualTerm cx n env t) fun _ r => Leaves cx ρ t r
  | .literal .., _, _, _, _ => by
    rw [residualTerm]
    exact .ret .literal
  | .var .., _, _, _, _ => by
    rw [residualTerm]
    exact .ret .var
  | .command .., _, _, _, _ => by
    rw [residualTerm]
    exact .ret .command
  | .quote .., _, _, _, _ => by
    rw [residualTerm]
    exact .ret .quote
  | .hole _, _, _, _, _ => by
    rw [residualTerm]
    exact .fail
  | .array _ _ es, _, _, _, henv => by
    rw [residualTerm]
    exact (residualTerms_finds es henv).bind fun _ _ _ hes => .ret (.array hes)
  | .list _ es, _, _, _, henv => by
    rw [residualTerm]
    exact (residualTerms_finds es henv).bind fun _ _ _ hes => .ret (.list hes)
  | .tuple _ es, _, _, _, henv => by
    rw [residualTerm]
    exact (residualTerms_finds es henv).bind fun _ _ _ hes => .ret (.tuple hes)
  | .compound _ fields, _, _, _, henv => by
    rw [residualTerm]
    exact (residualFields_finds fields henv).bind fun _ _ _ hfields => .ret (.compound hfields)
  | .ref _ e, _, _, _, henv => by
    rw [residualTerm]
    exact (residualTerm_finds e henv).bind fun _ _ _ he => .ret (.ref he)
  | .call _ _ a, _, _, _, henv => by
    rw [residualTerm]
    exact (residualTerm_finds a henv).bind fun _ _ _ ha => .ret (.call ha)
  | .lambda _ p b, _, _, _, henv => by
    rw [residualTerm]
    refine Finds.checkBinder.bind fun _ _ hle hp => ?_
    refine (Finds.makes (Makes.bindNeutral _ (henv.mono hle le_rfl))).bind fun _ _ _ hinner => ?_
    exact (residualTerm_finds b hinner).bind fun _ _ _ hb => .ret (.lambda hp hb)
  | .apply _ f a, _, _, _, henv => by
    rw [residualTerm]
    refine (residualTerm_finds f henv).bind fun _ _ hle hf => ?_
    exact (residualTerm_finds a (henv.mono hle le_rfl)).bind fun _ _ _ ha => .ret (.apply hf ha)
  | .cond _ c a b, _, _, _, henv => by
    rw [residualTerm]
    refine (residualTerm_finds c henv).bind fun _ _ hle hc => ?_
    have henv₁ := henv.mono hle le_rfl
    refine (residualTerm_finds a henv₁).bind fun _ _ hle₁ ha => ?_
    exact (residualTerm_finds b (henv₁.mono hle₁ le_rfl)).bind fun _ _ _ hb =>
      .ret (.cond hc ha hb)
  | .letIn ty p i b, _, _, _, henv => by
    rw [residualTerm]
    refine Finds.checkBinder.bind fun _ _ hle hp => ?_
    have henv₁ := henv.mono hle le_rfl
    refine (residualTerm_finds i henv₁).bind fun i' _ hle₁ hi => ?_
    have henv₂ := henv₁.mono hle₁ le_rfl
    refine (Finds.ofExcept _).bind fun depth _ hle₂ hdepth => ?_
    have henv₃ := henv₂.mono hle₂ le_rfl
    cases depth with
    | zero =>
      refine (Finds.makes (Makes.bindNeutral _ henv₃)).bind fun _ _ _ hinner => ?_
      exact (residualTerm_finds b hinner).bind fun _ _ _ hb => .ret (.letIn hp hi hdepth hb)
    | succ depth =>
      refine (Finds.makes (Makes.suspend henv₃ i')).bind fun c _ hle₃ hc => ?_
      have heval : Follows .byNeed cx (Eval.evaluate cx n) := evaluate_byNeed n
      have hextend := extend_tracks heval.force (henv₃.mono hle₃ le_rfl) hc p
      refine (Finds.ofEval hextend).bind fun _ _ _ hinner => ?_
      obtain ⟨θs, hθs, hinner⟩ := hinner
      refine (residualTerm_finds b hinner).bind fun b' _ _ hb => ?_
      refine (Finds.ofExcept _).bind fun rest _ _ hrest => ?_
      cases rest with
      | zero => exact .ret (.letGone hp hi hdepth hθs hb hrest)
      | succ => exact .ret (.letCode hp hi hdepth hθs hb hrest)
  | .test _ e p, _, _, _, henv => by
    rw [residualTerm]
    refine Finds.checkBinder.bind fun _ _ hle hp => ?_
    exact (residualTerm_finds e (henv.mono hle le_rfl)).bind fun _ _ _ he => .ret (.test hp he)
  | .splice ty e, _, _, _, henv => by
    rw [residualTerm]
    have heval : Follows .byNeed cx (Eval.evaluate cx n) := evaluate_byNeed n
    have hsplice := splice_tracks heval (readShape_byNeed n) henv (.splice ty e)
    exact (Finds.ofEval hsplice).imp fun _ r ⟨_, hcomes, heq⟩ => .splice (heq ▸ hcomes)

theorem residualTerms_finds : ∀ (ts : List Term) {Φ : Chart} {ρ : List Thunk} {env : Env},
    EnvStands Φ q ρ 0 env →
      Finds cx Φ q (residualTerms cx n env ts) fun _ rs => LeavesAll cx ρ ts rs
  | [], _, _, _, _ => by
    rw [residualTerms]
    exact .ret .nil
  | t :: ts, _, _, _, henv => by
    rw [residualTerms]
    refine (residualTerm_finds t henv).bind fun _ _ hle ht => ?_
    exact (residualTerms_finds ts (henv.mono hle le_rfl)).bind fun _ _ _ hts => .ret (.cons ht hts)

theorem residualFields_finds : ∀ (fields : List (String × Term)) {Φ : Chart} {ρ : List Thunk}
    {env : Env}, EnvStands Φ q ρ 0 env →
      Finds cx Φ q (residualFields cx n env fields) fun _ gs => LeavesFields cx ρ fields gs
  | [], _, _, _, _ => by
    rw [residualFields]
    exact .ret .nil
  | (key, t) :: rest, _, _, _, henv => by
    rw [residualFields]
    refine (residualTerm_finds t henv).bind fun _ _ hle ht => ?_
    exact (residualFields_finds rest (henv.mono hle le_rfl)).bind fun _ _ _ hrest =>
      .ret (.cons ht hrest)

end

end

/-- Staging a term gives another one, in every environment that stands for the thunks. -/
def Stages (cx : Context) (n : Nat) (ρ : List Thunk) (t r : Term) : Prop :=
  ∀ ⦃Φ q env⦄, EnvStands Φ q ρ 0 env →
    Reaches cx Φ q (residualTerm cx n env t) fun _ a => a = r

section

variable {cx : Context}

open Filter (Eventually atTop)
open Eval.ByName (Follows Makes extend_tracks evaluate_byName readShape_byName)

theorem ComesTo.eventually {α : Type} {y : Nat → Result α} {o : Result α} (h : ComesTo y o) :
    ∀ᶠ n in atTop, y n = o :=
  Filter.eventually_atTop.2 h

/-- A let of code stays in a term of a code type, and its body stands for any other term. -/
theorem stages_letIn_code {n k rest : Nat} {ρ θs : List Thunk} {ty : Ty} {p : Pattern}
    {i b i' b' : Term} (hp : p.hasHole = false) (hi : Stages cx n ρ i i')
    (hdepth : codeDepth cx.definitions p.ty = .ok (k + 1))
    (hθs : Eval.ByName.destructure (Eval.ByName.force (Eval.ByName.evaluate cx n)) p
      (.delayed ρ 0 i') = .ok θs)
    (hb : Stages cx n (ρ ++ θs) b b') (hrest : codeDepth cx.definitions ty = .ok rest) :
    Stages cx n ρ (.letIn ty p i b) (if rest = 0 then b' else .letIn ty p i' b') := by
  intro Φ q env henv
  rw [residualTerm]
  refine (Reaches.checkBinder hp).seq fun _ hle => ?_
  have henv₁ := henv.mono hle le_rfl
  refine (hi henv₁).seq fun _ hle₁ => ?_
  have henv₂ := henv₁.mono hle₁ le_rfl
  refine (Reaches.ofExcept hdepth).seq fun _ hle₂ => ?_
  have henv₃ := henv₂.mono hle₂ le_rfl
  rw [if_neg (Nat.succ_ne_zero k)]
  refine (Reaches.makes (Makes.suspend henv₃ i')).bind fun c _ hle₃ hc => ?_
  have heval : Follows (.byName n) cx (Eval.evaluate cx n) := evaluate_byName n
  have hextend := extend_tracks heval.force (henv₃.mono hle₃ le_rfl) hc p
  refine (Reaches.ofEval hextend hθs).bind fun _ _ _ hinner => ?_
  refine (hb hinner).seq fun _ _ => ?_
  refine (Reaches.ofExcept hrest).seq fun _ _ => ?_
  split <;> exact .ret rfl

mutual

/-- With enough fuel, staging gives what it leaves. -/
theorem eventually_stages : ∀ (t : Term) {ρ : List Thunk} {r : Term}, Leaves cx ρ t r →
    ∀ᶠ n in atTop, Stages cx n ρ t r
  | .literal .., _, _, h | .var .., _, _, h | .command .., _, _, h | .quote .., _, _, h => by
    cases h
    refine .of_forall fun n Φ q env henv => ?_
    rw [residualTerm]
    exact .ret rfl
  | .hole _, _, _, h => nomatch h
  | .array _ _ es, _, _, .array hes | .list _ es, _, _, .list hes
  | .tuple _ es, _, _, .tuple hes => by
    filter_upwards [eventually_stagesAll es hes] with n hn Φ q env henv
    rw [residualTerm]
    exact (hn henv).seq fun _ _ => .ret rfl
  | .compound _ fields, _, _, .compound hfields => by
    filter_upwards [eventually_stagesFields fields hfields] with n hn Φ q env henv
    rw [residualTerm]
    exact (hn henv).seq fun _ _ => .ret rfl
  | .ref _ e, _, _, .ref he | .call _ _ e, _, _, .call he => by
    filter_upwards [eventually_stages e he] with n hn Φ q env henv
    rw [residualTerm]
    exact (hn henv).seq fun _ _ => .ret rfl
  | .lambda _ p b, _, _, .lambda hp hb => by
    filter_upwards [eventually_stages b hb] with n hn Φ q env henv
    rw [residualTerm]
    refine (Reaches.checkBinder hp).seq fun _ hle => ?_
    refine (Reaches.makes (Makes.bindNeutral _ (henv.mono hle le_rfl))).bind fun _ _ _ hinner => ?_
    exact (hn hinner).seq fun _ _ => .ret rfl
  | .apply _ f a, _, _, .apply hf ha => by
    filter_upwards [eventually_stages f hf, eventually_stages a ha] with n hnf hna Φ q env henv
    rw [residualTerm]
    refine (hnf henv).seq fun _ hle => ?_
    exact (hna (henv.mono hle le_rfl)).seq fun _ _ => .ret rfl
  | .cond _ c a b, _, _, .cond hc ha hb => by
    filter_upwards [eventually_stages c hc, eventually_stages a ha, eventually_stages b hb]
      with n hnc hna hnb Φ q env henv
    rw [residualTerm]
    refine (hnc henv).seq fun _ hle => ?_
    have henv₁ := henv.mono hle le_rfl
    refine (hna henv₁).seq fun _ hle₁ => ?_
    exact (hnb (henv₁.mono hle₁ le_rfl)).seq fun _ _ => .ret rfl
  | .letIn _ p i b, _, _, .letIn hp hi hdepth hb => by
    filter_upwards [eventually_stages i hi, eventually_stages b hb] with n hni hnb Φ q env henv
    rw [residualTerm]
    refine (Reaches.checkBinder hp).seq fun _ hle => ?_
    have henv₁ := henv.mono hle le_rfl
    refine (hni henv₁).seq fun _ hle₁ => ?_
    have henv₂ := henv₁.mono hle₁ le_rfl
    refine (Reaches.ofExcept hdepth).seq fun _ hle₂ => ?_
    have henv₃ := henv₂.mono hle₂ le_rfl
    rw [if_pos rfl]
    refine (Reaches.makes (Makes.bindNeutral _ henv₃)).bind fun _ _ _ hinner => ?_
    exact (hnb hinner).seq fun _ _ => .ret rfl
  | .letIn _ p i b, _, _, .letCode hp hi hdepth hθs hb hrest => by
    filter_upwards [eventually_stages i hi, ComesTo.eventually hθs, eventually_stages b hb]
      with n hni hnθs hnb
    exact stages_letIn_code hp hni hdepth hnθs hnb hrest
  | .letIn _ p i b, _, _, .letGone hp hi hdepth hθs hb hrest => by
    filter_upwards [eventually_stages i hi, ComesTo.eventually hθs, eventually_stages b hb]
      with n hni hnθs hnb
    exact stages_letIn_code hp hni hdepth hnθs hnb hrest
  | .test _ e p, _, _, .test hp he => by
    filter_upwards [eventually_stages e he] with n hn Φ q env henv
    rw [residualTerm]
    refine (Reaches.checkBinder hp).seq fun _ hle => ?_
    exact (hn (henv.mono hle le_rfl)).seq fun _ _ => .ret rfl
  | .splice ty e, _, _, .splice hcomes => by
    filter_upwards [ComesTo.eventually hcomes] with n hn Φ q env henv
    rw [residualTerm]
    have heval : Follows (.byName n) cx (Eval.evaluate cx n) := evaluate_byName n
    have hsplice := splice_tracks heval (readShape_byName n) henv (.splice ty e)
    exact Reaches.ofEval hsplice hn

theorem eventually_stagesAll : ∀ (ts : List Term) {ρ : List Thunk} {rs : List Term},
    LeavesAll cx ρ ts rs → ∀ᶠ n in atTop, ∀ ⦃Φ q env⦄, EnvStands Φ q ρ 0 env →
      Reaches cx Φ q (residualTerms cx n env ts) fun _ a => a = rs
  | [], _, _, .nil => by
    refine .of_forall fun n Φ q env henv => ?_
    rw [residualTerms]
    exact .ret rfl
  | t :: ts, _, _, .cons ht hts => by
    filter_upwards [eventually_stages t ht, eventually_stagesAll ts hts] with n hn hns Φ q env henv
    rw [residualTerms]
    refine (hn henv).seq fun _ hle => ?_
    exact (hns (henv.mono hle le_rfl)).seq fun _ _ => .ret rfl

theorem eventually_stagesFields : ∀ (fields : List (String × Term)) {ρ : List Thunk}
    {gs : List (String × Term)}, LeavesFields cx ρ fields gs →
      ∀ᶠ n in atTop, ∀ ⦃Φ q env⦄, EnvStands Φ q ρ 0 env →
        Reaches cx Φ q (residualFields cx n env fields) fun _ a => a = gs
  | [], _, _, .nil => by
    refine .of_forall fun n Φ q env henv => ?_
    rw [residualFields]
    exact .ret rfl
  | (key, t) :: rest, _, _, .cons ht hrest => by
    filter_upwards [eventually_stages t ht, eventually_stagesFields rest hrest]
      with n hn hns Φ q env henv
    rw [residualFields]
    refine (hn henv).seq fun _ hle => ?_
    exact (hns (henv.mono hle le_rfl)).seq fun _ _ => .ret rfl

end

end

/-! ## Functions -/

/-- A function that is there at run time: it is neither static nor inlined, and its interface has no
code in it. -/
structure AtRunTime (cx : Context) (f : Staged.Function) : Prop where
  isStatic : f.has .static = false
  isInlined : f.has .inlined = false
  binder : codeDepth cx.definitions f.binder.ty = .ok 0
  result : codeDepth cx.definitions f.result = .ok 0

/-- What staging leaves of a function. -/
inductive LeavesFunction (cx : Context) : Staged.Function → Staged.Function → Prop
  | builtin {f} : AtRunTime cx f → f.has .builtin = true → LeavesFunction cx f f
  | body {f b} : AtRunTime cx f → f.has .builtin = false → f.binder.hasHole = false →
      Leaves cx (neutrals f.binder.binders) f.body b → LeavesFunction cx f { f with body := b }

section

variable {cx : Context} {n : Nat} {f g : Staged.Function} {d : Definition} {q : ℚ}

open Filter (Eventually atTop)
open Eval.ByName (Makes charted_empty)

theorem envStands_empty {Φ : Chart} : EnvStands Φ q [] 0 Env.empty := ⟨rfl, .nil⟩

theorem residualBody_finds {Φ : Chart} : Finds cx Φ q (residualBody cx n f.binder f.body)
    fun _ b => f.binder.hasHole = false ∧ Leaves cx (neutrals f.binder.binders) f.body b := by
  unfold residualBody
  refine Finds.checkBinder.bind fun _ _ _ hp => ?_
  refine (Finds.makes (Makes.bindNeutral _ envStands_empty)).bind fun _ _ _ hinner => ?_
  exact (residualTerm_finds f.body hinner).imp fun _ _ hb => ⟨hp, hb⟩

theorem residualFunction?_finds : Finds cx (fun _ => none) 0 (residualFunction? cx n f)
    fun _ g? => ∀ g ∈ g?, LeavesFunction cx f g := by
  unfold residualFunction?
  split
  · exact .ret nofun
  · next hgone =>
    rw [Bool.or_eq_true, not_or, Bool.not_eq_true, Bool.not_eq_true] at hgone
    refine (Finds.ofExcept _).bind fun k _ _ hbinder => ?_
    split
    · exact .ret nofun
    · next hk =>
      obtain rfl : k = 0 := not_not.1 hk
      refine (Finds.ofExcept _).bind fun k _ _ hresult => ?_
      split
      · exact .ret nofun
      · next hk =>
        obtain rfl : k = 0 := not_not.1 hk
        have hrun : AtRunTime cx f := ⟨hgone.1, hgone.2, hbinder, hresult⟩
        split
        · next hbuiltin =>
          refine .ret fun g hg => ?_
          cases hg
          exact .builtin hrun hbuiltin
        · next hbuiltin =>
          refine residualBody_finds.bind fun b _ _ ⟨hp, hb⟩ => .ret fun g hg => ?_
          cases hg
          exact .body hrun (Bool.eq_false_iff.2 hbuiltin) hp hb

/-- A function that staging gives is one that it leaves. -/
theorem leavesFunction_of_residual? (h : residual? cx n (.function f) = .ok (some d)) :
    ∃ g, d = .function g ∧ LeavesFunction cx f g := by
  unfold residual? at h
  rcases hrun : residualFunction? cx n f .empty with ⟨e | g?, s'⟩
  · change ((residualFunction? cx n f .empty).1).map _ = _ at h
    rw [hrun] at h
    cases h
  · change ((residualFunction? cx n f .empty).1).map _ = _ at h
    rw [hrun] at h
    obtain ⟨-, -, hleaves⟩ := residualFunction?_finds _ charted_empty _ _ hrun
    cases g? with
    | none => cases h
    | some g =>
      cases h
      exact ⟨g, rfl, hleaves g rfl⟩

theorem AtRunTime.reaches {y : ResidualM (Option Staged.Function)} (h : AtRunTime cx f)
    (hy : ∀ Φ, Reaches cx Φ 0 y fun _ g? => g? = some g) (Φ : Chart) :
    Reaches cx Φ 0 (do
      if f.has .static || f.has .inlined then return none
      if (← ResidualM.ofExcept (codeDepth cx.definitions f.binder.ty)) ≠ 0 then return none
      if (← ResidualM.ofExcept (codeDepth cx.definitions f.result)) ≠ 0 then return none
      y) fun _ g? => g? = some g := by
  rw [h.isStatic, h.isInlined]
  refine (Reaches.ofExcept h.binder).seq fun _ _ => ?_
  rw [if_neg (not_not.2 rfl)]
  refine (Reaches.ofExcept h.result).seq fun Φ _ => ?_
  rw [if_neg (not_not.2 rfl)]
  exact hy Φ

theorem reaches_residualBody {b : Term} {Φ : Chart} (hp : f.binder.hasHole = false)
    (hb : Stages cx n (neutrals f.binder.binders) f.body b) :
    Reaches cx Φ q (residualBody cx n f.binder f.body) fun _ a => a = b := by
  unfold residualBody
  refine (Reaches.checkBinder hp).seq fun _ _ => ?_
  exact (Reaches.makes (Makes.bindNeutral _ envStands_empty)).bind fun _ _ _ hinner => hb hinner

/-- With enough fuel, staging a function gives what it leaves of it. -/
theorem eventually_residual? (h : LeavesFunction cx f g) :
    ∀ᶠ n in atTop, residual? cx n (.function f) = .ok (some (.function g)) := by
  have hall : ∀ᶠ n in atTop,
      Reaches cx (fun _ => none) 0 (residualFunction? cx n f) fun _ g? => g? = some g := by
    cases h with
    | builtin hrun hbuiltin =>
      refine .of_forall fun n => ?_
      refine hrun.reaches (fun _ => ?_) _
      rw [hbuiltin]
      exact .ret rfl
    | body hrun hbuiltin hp hb =>
      filter_upwards [eventually_stages f.body hb] with n hn
      refine hrun.reaches (fun _ => ?_) _
      rw [hbuiltin]
      exact (reaches_residualBody hp hn).seq fun _ _ => .ret rfl
  filter_upwards [hall] with n hn
  obtain ⟨g?, s', -, hrun, -, rfl⟩ := hn .empty charted_empty
  exact congrArg (fun r => r.1.map fun g => g.map Definition.function) hrun

end

end Stagecraft.Residual
