import Stagecraft.Proofs.Sharing

/-!
# Comparing computations by need and by name

The rules of `Tracks`: one for each way in which the evaluator builds a computation from others.
-/

namespace Stagecraft.Eval

open Staged (Ty Pattern Term)

/-- The environment that a computation leaves which binds variables, and the failure that ended it,
if there was one. -/
def BindM.attempt (x : BindM Unit) (env : Env) : EvalM (Env × Option Error) := fun s =>
  match x env s with
  | ((.ok _, env'), s') => (.ok (env', none), s')
  | ((.error (.failed e), env'), s') => (.ok (env', some e), s')
  | ((.error .outOfFuel, _), s') => (.error .outOfFuel, s')

namespace ByName

/-- Which of the two runs is known to end. -/
inductive Mode where
  /-- The run on the store. -/
  | byNeed
  /-- The run by name, with this much fuel. -/
  | byName (fuel : Nat)

namespace Mode

variable {α β γ δ : Type}

/-- The run that is known to end does not, so nothing is said of the other one. -/
def Excuses (x : Result α) (y : Nat → Result β) : Mode → Prop
  | byNeed => x = .error .outOfFuel
  | byName n => y n = .error .outOfFuel

/-- The answers by name, one for each amount of fuel, come to an answer. -/
def Settles (y : Nat → Result β) (o : Result β) : Mode → Prop
  | byNeed => ComesTo y o
  | byName n => y n = o

variable {m : Mode} {x : Result α} {y : Nat → Result β} {b : β} {o : Result γ}

theorem settles_const (o : Result β) : m.Settles (fun _ => o) o := by
  cases m with
  | byNeed => exact .const o
  | byName n => exact rfl

theorem settles_bind {g : Nat → β → Result γ} (hy : m.Settles y (.ok b))
    (hg : m.Settles (fun k => g k b) o) : m.Settles (fun k => y k >>= g k) o := by
  cases m with
  | byNeed => exact ComesTo.bind hy hg
  | byName n =>
    have hyn : y n = .ok b := hy
    change (y n >>= g n) = o
    rw [hyn]
    exact hg

theorem settles_bind_error {g : Nat → β → Result γ} {e : Stop Error}
    (hy : m.Settles y (.error e)) : m.Settles (fun k => y k >>= g k) (.error e) := by
  cases m with
  | byNeed => exact ComesTo.bind_error hy
  | byName n =>
    have hyn : y n = .error e := hy
    change (y n >>= g n) = _
    rw [hyn]
    rfl

theorem settles_orElse_ok {y' : Nat → Result β} (hy : m.Settles y (.ok b)) :
    m.Settles (fun k => Result.orElse (y k) (y' k)) (.ok b) := by
  cases m with
  | byNeed => exact ComesTo.orElse_ok hy
  | byName n =>
    have hyn : y n = .ok b := hy
    change Result.orElse (y n) (y' n) = _
    rw [hyn]
    rfl

theorem settles_orElse_failed {y' : Nat → Result β} {e : Error} {o : Result β}
    (hy : m.Settles y (.error (.failed e))) (hy' : m.Settles y' o) :
    m.Settles (fun k => Result.orElse (y k) (y' k)) o := by
  cases m with
  | byNeed => exact ComesTo.orElse_failed hy hy'
  | byName n =>
    have hyn : y n = .error (.failed e) := hy
    change Result.orElse (y n) (y' n) = _
    rw [hyn]
    exact hy'

theorem excuses_bind {f : EvalM α} (k : α → EvalM δ) (g : Nat → β → Result γ) {s : Store}
    (h : m.Excuses (f s).1 y) : m.Excuses ((f >>= k) s).1 (fun n => y n >>= g n) := by
  cases m with
  | byNeed =>
    have hf : (f s).1 = .error .outOfFuel := h
    change ((f >>= k) s).1 = _
    rw [EvalM.run_bind]
    rcases hfs : f s with ⟨e | a, s'⟩
    · rw [hfs] at hf
      cases hf
      rfl
    · rw [hfs] at hf
      cases hf
  | byName n =>
    have hy : y n = .error .outOfFuel := h
    change (y n >>= g n) = _
    rw [hy]
    rfl

theorem excuses_bind_ok {g : Nat → β → Result γ} {r : Result α} (hy : m.Settles y (.ok b))
    (h : m.Excuses r (fun n => g n b)) : m.Excuses r (fun n => y n >>= g n) := by
  cases m with
  | byNeed => exact h
  | byName n =>
    have hyn : y n = .ok b := hy
    change (y n >>= g n) = _
    rw [hyn]
    exact h

/-- What has an answer with some fuel has it with all larger fuel, so it settles at this answer. -/
theorem excuses_or_settles {y : Nat → Result β} {b : β}
    (hstays : ∀ n k, n ≤ k → y n ≠ .error .outOfFuel → y k = y n) (h : ∃ n, y n = .ok b) :
    m.Excuses x y ∨ m.Settles y (.ok b) := by
  obtain ⟨N, hN⟩ := h
  cases m with
  | byNeed =>
    refine .inr ⟨N, fun k hk => ?_⟩
    rw [hstays N k hk (by rw [hN]; nofun), hN]
  | byName n =>
    by_cases hn : y n = .error .outOfFuel
    · exact .inl hn
    · refine .inr ?_
      change y n = .ok b
      rcases Nat.le_total n N with hle | hle
      · rw [← hstays n N hle hn, hN]
      · rw [hstays N n hle (by rw [hN]; nofun), hN]

theorem exists_of_settles {o : Result β} (h : m.Settles y o) : ∃ n, y n = o := by
  cases m with
  | byNeed =>
    obtain ⟨n, hn⟩ := h
    exact ⟨n, hn n (Nat.le_refl n)⟩
  | byName n => exact ⟨n, h⟩

end Mode

/-- The same answer, up to how values are represented. -/
inductive Matches {α β : Type} (R : α → β → Prop) : Result α → Result β → Prop
  | ok {a b} : R a b → Matches R (.ok a) (.ok b)
  | failed {e} : Matches R (.error (.failed e)) (.error (.failed e))

theorem Matches.eq {α : Type} {x y : Result α} (h : Matches (· = ·) x y) : x = y := by
  cases h with
  | ok hab => rw [hab]
  | failed => rfl

theorem Matches.failed_iff {α β : Type} {R : α → β → Prop} {x : Result α} {y : Result β}
    (h : Matches R x y) (e : Error) : x = .error (.failed e) ↔ y = .error (.failed e) := by
  cases h with
  | ok => simp only [reduceCtorEq]
  | failed => simp only [Except.error.injEq]

/-- The same ends, up to how values are represented. -/
inductive EndsAs {α β : Type} (R : α → β → Prop) : Except Error α → Except Error β → Prop
  | ok {a b} : R a b → EndsAs R (.ok a) (.ok b)
  | failed {e} : EndsAs R (.error e) (.error e)

/-- A computation on a charted store and a computation by name that end the same way, if the one that
is known to end does. The forces that fail on the way are of thunks that fail. -/
def Tracks {α β : Type} (m : Mode) (cx : Context) (Φ : Chart) (q : ℚ) (x : EvalM α)
    (y : Nat → Result β) (R : Chart → α → β → Prop) : Prop :=
  ∀ s, Charted cx Φ q s → m.Excuses (x s).1 y ∨
    ∃ o Φ', m.Settles y o ∧ Moves cx q Φ s Φ' (x s).2 ∧ Matches (R Φ') (x s).1 o ∧
      Traced cx Φ' q x s

/-- A computation that only makes cells: it does not stop, and evaluation by name has no step for
it. -/
def Makes {α : Type} (cx : Context) (Φ : Chart) (q : ℚ) (x : EvalM α) (Q : Chart → α → Prop) :
    Prop :=
  ∀ s, Charted cx Φ q s →
    ∃ a Φ', (x s).1 = .ok a ∧ Moves cx q Φ s Φ' (x s).2 ∧ Q Φ' a ∧ Traced cx Φ' q x s

section

variable {m : Mode} {cx : Context} {Φ : Chart} {q : ℚ} {α β γ δ : Type}

namespace Makes

theorem ret {a : α} {Q : Chart → α → Prop} (h : Q Φ a) : Makes cx Φ q (pure a) Q :=
  fun _ hs => ⟨a, Φ, rfl, .refl hs, h, .nothing .pure⟩

theorem bind {x : EvalM α} {f : α → EvalM β} {Q : Chart → α → Prop} {R : Chart → β → Prop}
    (hx : Makes cx Φ q x Q) (hf : ∀ a Φ', Φ ≤ Φ' → Q Φ' a → Makes cx Φ' q (f a) R) :
    Makes cx Φ q (x >>= f) R := by
  intro s hs
  obtain ⟨a, Φ', ha, hmoves, hQ, htraced⟩ := hx s hs
  obtain ⟨b, Φ'', hb, hmoves', hR, htraced'⟩ := hf a Φ' hmoves.le hQ _ hmoves.charted
  have hxs : x s = (.ok a, (x s).2) := Prod.ext ha rfl
  have hrun : (x >>= f) s = f a (x s).2 := by rw [EvalM.run_bind, hxs]
  rw [hrun]
  exact ⟨b, Φ'', hb, hmoves.trans hmoves', hR, htraced.bind hmoves'.le hxs htraced'⟩

theorem suspend {ρ : List Thunk} {depth : Nat} {env : Env} (henv : EnvStands Φ q ρ depth env)
    (t : Term) :
    Makes cx Φ q (EvalM.suspend env t) fun Φ' c => Stands Φ' q (.delayed ρ depth t) c := by
  intro s hs
  obtain ⟨r, hr, henv'⟩ := henv.exists_rank
  have hcell : CellDepicts cx Φ r (.delayed ρ depth t) (.suspended ⟨env, t⟩) :=
    ⟨ρ, depth, rfl, henv'⟩
  refine ⟨s.cells.size, _, rfl, hs.alloc hr hcell, ⟨r, hr, Chart.put_self ..⟩, ?_⟩
  exact .nothing .suspend

theorem suspendAll {ρ : List Thunk} {depth : Nat} {env : Env} : ∀ {Φ : Chart} (ts : List Term),
    EnvStands Φ q ρ depth env →
      Makes cx Φ q (EvalM.suspendAll env ts) fun Φ' cs =>
        Parts Φ' q (ts.map (.delayed ρ depth)) cs
  | _, [], _ => ret .nil
  | _, t :: ts, henv => by
    refine (suspend henv t).bind fun c Φ₁ hle hc => ?_
    refine (suspendAll ts (henv.mono hle le_rfl)).bind fun cs Φ₂ hle' hcs => ret ?_
    exact .cons (hc.mono hle' le_rfl) hcs

theorem suspendFields {ρ : List Thunk} {depth : Nat} {env : Env} :
    ∀ {Φ : Chart} (fields : List (String × Term)), EnvStands Φ q ρ depth env →
      Makes cx Φ q (EvalM.suspendFields env fields) fun Φ' cs =>
        FieldParts Φ' q (fields.map fun f => (f.1, .delayed ρ depth f.2)) cs
  | _, [], _ => ret .nil
  | _, (key, t) :: rest, henv => by
    refine (suspend henv t).bind fun c Φ₁ hle hc => ?_
    refine (suspendFields rest (henv.mono hle le_rfl)).bind fun cs Φ₂ hle' hcs => ret ?_
    exact .cons ⟨rfl, hc.mono hle' le_rfl⟩ hcs

/-- A new cell that holds a value. -/
theorem known {v : Value} {u : Eval.Value} (h : Depicts Φ q v u) :
    Makes cx Φ q (EvalM.alloc (.forced u)) fun Φ' c => Stands Φ' q (.known v) c := by
  intro s hs
  obtain ⟨r, hr, h'⟩ := h.exists_rank
  have hcell : CellDepicts cx Φ r (.known v) (.forced u) := ⟨v, ⟨0, rfl⟩, h'⟩
  refine ⟨s.cells.size, _, rfl, hs.alloc hr hcell, ⟨r, hr, Chart.put_self ..⟩, ?_⟩
  refine .of_trace .known fun d e he => ?_
  cases List.mem_singleton.1 he

theorem bindNeutral {depth : Nat} : ∀ {Φ : Chart} {ρ : List Thunk} {env : Env} (vars : List Var),
    EnvStands Φ q ρ depth env →
      Makes cx Φ q (EvalM.bindNeutral env vars) fun Φ' env' =>
        EnvStands Φ' q (ρ ++ neutrals vars) depth env'
  | _, ρ, _, [], henv => ret (by rwa [neutrals, List.map_nil, List.append_nil])
  | _, ρ, env, v :: vars, henv => by
    refine (known .var).bind fun c Φ₁ hle hc => ?_
    have henv' : EnvStands Φ₁ q (ρ ++ [.known (.var v)]) depth (env.bind c) :=
      ⟨henv.depth, List.rel_append (henv.cells.mono hle le_rfl) (.cons hc .nil)⟩
    have hrest : Makes cx Φ₁ q (EvalM.bindNeutral (env.bind c) vars) fun Φ' env' =>
        EnvStands Φ' q (ρ ++ [.known (.var v)] ++ neutrals vars) depth env' :=
      bindNeutral vars henv'
    rwa [List.append_assoc] at hrest

end Makes

namespace Tracks

theorem ret {a : α} {b : β} {R : Chart → α → β → Prop} (h : R Φ a b) :
    Tracks m cx Φ q (pure a) (fun _ => .ok b) R :=
  fun _ hs => .inr ⟨.ok b, Φ, m.settles_const _, .refl hs, .ok h, .nothing .pure⟩

theorem fail {e : Error} {R : Chart → α → β → Prop} :
    Tracks m cx Φ q (EvalM.fail e) (fun _ => Result.fail e) R :=
  fun _ hs => .inr ⟨Result.fail e, Φ, m.settles_const _, .refl hs, .failed, .nothing .fail⟩

theorem ofExcept {x : Except Error α} :
    Tracks m cx Φ q (EvalM.ofExcept x) (fun _ => Result.ofExcept x) fun _ a b => a = b := by
  cases x with
  | error e => exact fail
  | ok a => exact ret rfl

theorem bind {x : EvalM α} {y : Nat → Result β} {f : α → EvalM γ} {g : Nat → β → Result δ}
    {Q : Chart → α → β → Prop} {R : Chart → γ → δ → Prop} (hx : Tracks m cx Φ q x y Q)
    (hf : ∀ a b Φ', Φ ≤ Φ' → Q Φ' a b → Tracks m cx Φ' q (f a) (fun k => g k b) R) :
    Tracks m cx Φ q (x >>= f) (fun k => y k >>= g k) R := by
  intro s hs
  rcases hx s hs with hexc | ⟨o, Φ', hset, hmoves, hmatch, htraced⟩
  · exact .inl (Mode.excuses_bind f g hexc)
  · rw [EvalM.run_bind]
    rcases hxs : x s with ⟨e | a, s'⟩
    · rw [hxs] at hmoves hmatch
      cases hmatch with
      | failed =>
        exact .inr ⟨_, Φ', Mode.settles_bind_error hset, hmoves, .failed,
          htraced.imp fun _ => .stopped hxs⟩
    · rw [hxs] at hmoves hmatch
      cases hmatch with
      | ok hQ =>
        rcases hf _ _ Φ' hmoves.le hQ s' hmoves.charted with
          hexc | ⟨o', Φ'', hset', hmoves', hmatch', htraced'⟩
        · exact .inl (Mode.excuses_bind_ok hset hexc)
        · exact .inr ⟨o', Φ'', Mode.settles_bind hset hset', hmoves.trans hmoves', hmatch',
            htraced.bind hmoves'.le hxs htraced'⟩

/-- Cells made on the way. -/
theorem afterMakes {x : EvalM α} {f : α → EvalM γ} {y : Nat → Result δ} {Q : Chart → α → Prop}
    {R : Chart → γ → δ → Prop} (hx : Makes cx Φ q x Q)
    (hf : ∀ a Φ', Φ ≤ Φ' → Q Φ' a → Tracks m cx Φ' q (f a) y R) :
    Tracks m cx Φ q (x >>= f) y R := by
  intro s hs
  obtain ⟨a, Φ', ha, hmoves, hQ, htraced⟩ := hx s hs
  have hxs : x s = (.ok a, (x s).2) := Prod.ext ha rfl
  have hrun : (x >>= f) s = f a (x s).2 := by rw [EvalM.run_bind, hxs]
  rw [hrun]
  rcases hf a Φ' hmoves.le hQ _ hmoves.charted with
    hexc | ⟨o, Φ'', hset, hmoves', hmatch, htraced'⟩
  · exact .inl hexc
  · exact .inr ⟨o, Φ'', hset, hmoves.trans hmoves', hmatch, htraced.bind hmoves'.le hxs htraced'⟩

/-- A computation that makes something which stands for a result. -/
theorem ofMakes {x : EvalM α} {b : β} {Q : Chart → α → Prop} {R : Chart → α → β → Prop}
    (hx : Makes cx Φ q x Q) (hR : ∀ a Φ', Q Φ' a → R Φ' a b) :
    Tracks m cx Φ q x (fun _ => .ok b) R := by
  intro s hs
  obtain ⟨a, Φ', ha, hmoves, hQ, htraced⟩ := hx s hs
  rw [ha]
  exact .inr ⟨.ok b, Φ', m.settles_const _, hmoves, .ok (hR a Φ' hQ), htraced⟩

/-- A computation that goes on from what was made, and gives it or something built of it. -/
theorem made {x : EvalM α} {f : α → γ} {b : δ} {Q : Chart → α → Prop} {R : Chart → γ → δ → Prop}
    (hx : Makes cx Φ q x Q) (hR : ∀ a Φ', Φ ≤ Φ' → Q Φ' a → R Φ' (f a) b) :
    Tracks m cx Φ q (x >>= fun a => pure (f a)) (fun _ => .ok b) R :=
  afterMakes hx fun a Φ' hle hQ => ret (hR a Φ' hle hQ)

theorem orElse {x x' : EvalM α} {y y' : Nat → Result β} {R : Chart → α → β → Prop}
    (hx : Tracks m cx Φ q x y R) (hx' : ∀ Φ', Φ ≤ Φ' → Tracks m cx Φ' q x' y' R) :
    Tracks m cx Φ q (EvalM.orElse x x') (fun k => Result.orElse (y k) (y' k)) R := by
  intro s hs
  rcases hx s hs with hexc | ⟨o, Φ', hset, hmoves, hmatch, htraced⟩
  · refine .inl ?_
    cases m with
    | byNeed =>
      have hxs : (x s).1 = .error .outOfFuel := hexc
      change (EvalM.orElse x x' s).1 = _
      unfold EvalM.orElse
      rcases hr : x s with ⟨r, s'⟩
      rw [hr] at hxs
      change r = _ at hxs
      rw [hxs]
    | byName n =>
      have hyn : y n = .error .outOfFuel := hexc
      change Result.orElse (y n) (y' n) = _
      rw [hyn]
      rfl
  · rcases hr : x s with ⟨r, s'⟩
    rw [hr] at hmoves hmatch
    cases hmatch with
    | ok hR =>
      have hrun : EvalM.orElse x x' s = x s := by
        unfold EvalM.orElse
        rw [hr]
      rw [hrun, hr]
      exact .inr ⟨_, Φ', Mode.settles_orElse_ok hset, hmoves, .ok hR,
        htraced.imp fun _ => .first hr⟩
    | @failed e =>
      have hrun : EvalM.orElse x x' s = x' s' := by
        unfold EvalM.orElse
        rw [hr]
      rw [hrun]
      rcases hx' Φ' hmoves.le s' hmoves.charted with
        hexc | ⟨o', Φ'', hset', hmoves', hmatch', htraced'⟩
      · refine .inl ?_
        cases m with
        | byNeed => exact hexc
        | byName n =>
          have hyn : y n = .error (.failed e) := hset
          change Result.orElse (y n) (y' n) = _
          rw [hyn]
          exact hexc
      · exact .inr ⟨o', Φ'', Mode.settles_orElse_failed hset hset', hmoves.trans hmoves', hmatch',
          htraced.append hmoves'.le htraced' fun _ _ => .second hr⟩

/-- A computation whose failures are results. -/
theorem attempt {x : EvalM α} {y : Nat → Result β} {R : Chart → α → β → Prop}
    (h : Tracks m cx Φ q x y R) :
    Tracks m cx Φ q x.attempt (fun k => (y k).attempt) fun Φ' => EndsAs (R Φ') := by
  intro s hs
  rcases h s hs with hexc | ⟨o, Φ', hset, hmoves, hmatch, htraced⟩
  · refine .inl ?_
    cases m with
    | byNeed =>
      have hx : (x s).1 = .error .outOfFuel := hexc
      change (x.attempt s).1 = _
      unfold EvalM.attempt
      rcases hxs : x s with ⟨r, s'⟩
      rw [hxs] at hx
      cases hx
      rfl
    | byName n =>
      have hy : y n = .error .outOfFuel := hexc
      change (y n).attempt = _
      rw [hy]
      rfl
  · have hset' : m.Settles (fun k => (y k).attempt) o.attempt := by
      cases m with
      | byNeed =>
        obtain ⟨N, hN⟩ := hset
        exact ⟨N, fun k hk => congrArg Result.attempt (hN k hk)⟩
      | byName n => exact congrArg Result.attempt hset
    rcases hxs : x s with ⟨r, s'⟩
    rw [hxs] at hmoves hmatch
    cases hmatch with
    | @ok a b hab =>
      have hrun : x.attempt s = (.ok (.ok a), s') := by rw [EvalM.attempt, hxs]
      rw [hrun]
      exact .inr ⟨_, Φ', hset', hmoves, .ok (.ok hab), htraced.imp fun _ => .attempt⟩
    | @failed e =>
      have hrun : x.attempt s = (.ok (.error e), s') := by rw [EvalM.attempt, hxs]
      rw [hrun]
      exact .inr ⟨_, Φ', hset', hmoves, .ok .failed, htraced.imp fun _ => .attempt⟩

/-- An answer by name is the answer on the store with the same fuel. -/
theorem eq_of_byName {n : Nat} {x : EvalM α} {y : Nat → Result α}
    (h : Tracks (.byName n) cx Φ q x y fun _ a b => a = b) {s : Store} (hs : Charted cx Φ q s)
    (hy : y n ≠ .error .outOfFuel) : (x s).1 = y n := by
  rcases h s hs with hexc | ⟨o, Φ', hset, -, hmatch, -⟩
  · exact absurd hexc hy
  · have ho : y n = o := hset
    rw [ho]
    exact hmatch.eq

/-- An answer on the store is what the answers by name come to. -/
theorem comesTo_of_byNeed {x : EvalM α} {y : Nat → Result α}
    (h : Tracks .byNeed cx Φ q x y fun _ a b => a = b) {s : Store} (hs : Charted cx Φ q s)
    (hx : (x s).1 ≠ .error .outOfFuel) : ComesTo y (x s).1 := by
  rcases h s hs with hexc | ⟨o, Φ', hset, -, hmatch, -⟩
  · exact absurd hexc hx
  · rw [hmatch.eq]
    exact hset

end Tracks

/-- No cell stands for anything. -/
theorem charted_empty : Charted cx (fun _ => none) q Store.empty := fun _ _ _ h => nomatch h

/-- An evaluation on the store that goes as evaluation by name does. -/
def Follows (m : Mode) (cx : Context) (eval : Eval.Evaluation) : Prop :=
  ∀ ⦃Φ q ρ depth env⦄ (t : Term), EnvStands Φ q ρ depth env →
    Tracks m cx Φ q (eval env t) (fun k => evaluate cx k ρ depth t) fun Φ' u v => Depicts Φ' q v u

/-- Looking at a cell gives the value of the thunk that it stands for. -/
def Looks (m : Mode) (cx : Context) (forceCell : CellId → EvalM Eval.Value) : Prop :=
  ∀ ⦃Φ q θ c⦄, Stands Φ q θ c →
    Tracks m cx Φ q (forceCell c) (fun k => force (evaluate cx k) θ) fun Φ' u v => Depicts Φ' q v u

/-- Forcing gives a cell the value of the thunk that it stands for, and marks it. -/
theorem Follows.force {n : Nat} (heval : Follows m cx (Eval.evaluate cx n)) :
    Looks m cx (Eval.force (Eval.evaluate cx n)) := by
  intro Φ q θ c hc s hs
  obtain ⟨r, hr, hΦ⟩ := hc
  have hcell := (hs c θ r hΦ).2 hr
  cases hread : s.read c with
  | forced u =>
    have hforce : Eval.force (Eval.evaluate cx n) c s = (.ok u, s) := by
      rw [Eval.force, Memo.force, hread]
    rw [hread] at hcell
    obtain ⟨v, hv, hu⟩ := hcell
    rw [hforce]
    rcases m.excuses_or_settles (fun n k hle h => force_stays hle h) hv with hexc | hset
    · exact .inl hexc
    · refine .inr ⟨.ok v, Φ, hset, .refl hs, .ok (hu.mono (Chart.le_refl Φ) hr.le), ?_⟩
      refine .of_trace (.kept hread) fun d e he => ?_
      cases List.mem_singleton.1 he
  | forcing =>
    rw [hread] at hcell
    exact hcell.elim
  | suspended work =>
    rw [hread] at hcell
    obtain ⟨ρ, depth, rfl, henv⟩ := hcell
    have hs₁ : Charted cx Φ r (s.write c .forcing) := hs.enter hr hΦ _
    have hrun := heval work.term henv _ hs₁
    rcases hstep : Eval.evaluate cx n work.env work.term (s.write c .forcing) with ⟨e | u, s'⟩
    · have hforce : Eval.force (Eval.evaluate cx n) c s =
          (.error e, s'.write c (.suspended work)) := by
        rw [Eval.force, Memo.force, hread]
        dsimp only
        rw [hstep]
      rw [hstep] at hrun
      rw [hforce]
      rcases hrun with hexc | ⟨o, Φ', hset, hmoves, hmatch, htraced⟩
      · exact .inl hexc
      · cases hmatch with
        | @failed e =>
          have hcell' : CellDepicts cx Φ' r (.delayed ρ depth work.term) (.suspended work) :=
            ⟨ρ, depth, rfl, henv.mono hmoves.le le_rfl⟩
          refine .inr ⟨_, Φ', hset, hmoves.leave hs hr hΦ hcell', .failed, ?_⟩
          refine htraced.leave (.failed c e) hr (hmoves.le _ _ hΦ) (fun L => .failed hread hstep) ?_
          intro d e' heq
          cases heq
          exact ⟨rfl, Mode.exists_of_settles hset⟩
    · have hforce : Eval.force (Eval.evaluate cx n) c s = (.ok u, s'.write c (.forced u)) := by
        rw [Eval.force, Memo.force, hread]
        dsimp only
        rw [hstep]
      rw [hstep] at hrun
      rw [hforce]
      rcases hrun with hexc | ⟨o, Φ', hset, hmoves, hmatch, htraced⟩
      · refine .inl ?_
        cases m with
        | byNeed => cases hexc
        | byName n => exact hexc
      · cases hmatch with
        | ok hu =>
          have hcell' : CellDepicts cx Φ' r (.delayed ρ depth work.term) (.forced u) :=
            ⟨_, Mode.exists_of_settles hset, hu⟩
          refine .inr ⟨_, Φ', hset, hmoves.leave hs hr hΦ hcell',
            .ok (hu.mono (Chart.le_refl Φ') hr.le), ?_⟩
          refine htraced.leave (.forced c u) hr (hmoves.le _ _ hΦ) (fun L => .forced hread hstep) ?_
          intro d e heq
          cases heq

end

end ByName

end Stagecraft.Eval
