import Stagecraft.Proofs.World

/-!
# Patterns by need and by value

Where the evaluator decides a test, the flat pattern decides it the same way (`decideMatch_agrees`);
where it takes a value apart, the cells it binds stand for the values that the flat binder binds
(`extend_agrees`). The evaluator looks at less than the flat language does: it skips patterns that
cannot fail, stops at the first mismatch and leaves a stuck value alone.
-/

namespace Stagecraft.Eval

open Flat (Program Mirrors MirrorsAll MirrorsFields Bindings)

section

variable {table : Staged.Table}

mutual

/-- A pattern that cannot fail matches whatever it has an answer on. -/
theorem matches?_of_irrefutable : ∀ {p : Staged.Pattern} {S S' : Bindings} {p' : Flat.Pattern}
    {w : Flat.Value} {b : Bool}, irrefutable p = .ok true → Mirrors table S p p' S' →
      p'.matches? w = some b → b = true
  | .hole _, _, _, _, _, _, h, _, _ => nomatch h
  | .int .., _, _, _, _, _, h, _, _ => nomatch h
  | .range .., _, _, _, _, _, h, _, _ => nomatch h
  | .list .., _, _, _, _, _, h, _, _ => nomatch h
  | .var .., _, _, _, _, b, _, .var _, hb => by
    simp only [Flat.Pattern.matches?, Option.some.injEq] at hb
    exact hb.symm
  | .wildcard _, _, _, _, _, b, _, .wildcard _, hb => by
    simp only [Flat.Pattern.matches?, Option.some.injEq] at hb
    exact hb.symm
  | .tuple .., _, _, _, w, b, h, .tuple _ hps, hb => by
    simp only [irrefutable] at h
    cases w <;> simp only [Flat.Pattern.matches?, reduceCtorEq] at hb
    split at hb
    · next hl => exact matchesAll?_of_irrefutable h hps hl hb
    · cases hb
  | .compound .., _, _, _, w, b, h, .compound _ hfields, hb => by
    simp only [irrefutable] at h
    cases w <;> simp only [Flat.Pattern.matches?, reduceCtorEq] at hb
    exact matchesFields?_of_irrefutable h hfields hb

theorem matchesAll?_of_irrefutable : ∀ {ps : List Staged.Pattern} {S S' : Bindings}
    {ps' : List Flat.Pattern} {ws : List Flat.Value} {b : Bool}, allIrrefutable ps = .ok true →
      MirrorsAll table S ps ps' S' → ps'.length = ws.length →
      Flat.Pattern.matchesAll? ps' ws = some b → b = true
  | [], _, _, _, ws, b, _, .nil, _, hb => by
    simp only [Flat.Pattern.matchesAll?, Option.some.injEq] at hb
    exact hb.symm
  | _ :: _, _, _, _, [], _, _, .cons .., hl, _ => nomatch hl
  | p :: ps, _, _, _, w :: ws, b, h, .cons hp hps, hl, hb => by
    simp only [allIrrefutable, Except.bind_ok] at h
    obtain ⟨fine, hfine, h⟩ := h
    cases fine with
    | false => cases h
    | true =>
      simp only [Flat.Pattern.matchesAll?, Option.bind_eq_bind, Option.bind_eq_some_iff,
        Option.pure_def, Option.some.injEq] at hb
      obtain ⟨here, hhere, rest, hrest, rfl⟩ := hb
      rw [matches?_of_irrefutable hfine hp hhere,
        matchesAll?_of_irrefutable h hps (Nat.succ.inj hl) hrest]
      rfl

theorem matchesFields?_of_irrefutable : ∀ {fields : List (String × Staged.Pattern)}
    {S S' : Bindings} {fields' : List (String × Flat.Pattern)}
    {ws : List (String × Flat.Value)} {b : Bool}, allFieldsIrrefutable fields = .ok true →
      MirrorsFields table S fields fields' S' →
      Flat.Pattern.matchesFields? ws fields' = some b → b = true
  | [], _, _, _, _, b, _, .nil, hb => by
    simp only [Flat.Pattern.matchesFields?, Option.some.injEq] at hb
    exact hb.symm
  | (key, p) :: rest, _, _, _, ws, b, h, .cons hp hrest, hb => by
    simp only [allFieldsIrrefutable, Except.bind_ok] at h
    obtain ⟨fine, hfine, h⟩ := h
    cases fine with
    | false => cases h
    | true =>
      simp only [Flat.Pattern.matchesFields?, Option.bind_eq_bind, Option.bind_eq_some_iff,
        Option.pure_def, Option.some.injEq] at hb
      obtain ⟨w, -, here, hhere, more, hmore, rfl⟩ := hb
      rw [matches?_of_irrefutable hfine hp hhere, matchesFields?_of_irrefutable h hrest hmore]
      rfl

end

end

/-- A cell at the key of a field stands for the flat value at that key. -/
theorem FieldCells.find? {Ω : World} {ws : List (String × Flat.Value)}
    {entries : List (String × CellId)} (h : FieldCells Ω ws entries) {key : String} {c : CellId}
    (hc : Keyed.find? key entries = some c) : ∃ w, Keyed.find? key ws = some w ∧ Ω c = some w := by
  induction h with
  | nil => cases hc
  | @cons e f ws entries hef _ ih =>
    obtain ⟨k, w⟩ := e
    obtain ⟨k', d⟩ := f
    obtain ⟨rfl, hd⟩ := hef
    by_cases hk : k = key
    · simp only [Keyed.find?, if_pos hk, Option.some.injEq] at hc ⊢
      subst hc
      exact ⟨w, rfl, hd⟩
    · simp only [Keyed.find?, if_neg hk] at hc ⊢
      exact ih hc

/-- Cells that stand for the flat values at the keys of a record pattern. -/
def CellsAt (Ω : World) (ws : List (String × Flat.Value)) :
    List (String × Staged.Pattern) → List CellId → Prop :=
  List.Forall₂ fun f c => ∃ w, Keyed.find? f.1 ws = some w ∧ Ω c = some w

theorem CellsAt.mono {Ω Ω' : World} (hle : Ω ≤ Ω') {ws : List (String × Flat.Value)}
    {fields : List (String × Staged.Pattern)} {cs : List CellId} (h : CellsAt Ω ws fields cs) :
    CellsAt Ω' ws fields cs :=
  h.imp fun _ _ ⟨w, hw, hc⟩ => ⟨w, hw, hle _ _ hc⟩

theorem FieldCells.cellsAt? {Ω : World} {ws : List (String × Flat.Value)}
    {entries : List (String × CellId)} (h : FieldCells Ω ws entries) :
    ∀ {fields : List (String × Staged.Pattern)} {cs : List CellId},
      cellsAt? entries fields = some cs → CellsAt Ω ws fields cs
  | [], cs, hcs => by
    cases hcs
    exact .nil
  | (key, p) :: rest, cs, hcs => by
    simp only [Eval.cellsAt?, Option.bind_eq_bind, Option.bind_eq_some_iff, Option.pure_def,
      Option.some.injEq] at hcs
    obtain ⟨c, hc, cs', hcs', rfl⟩ := hcs
    exact .cons (h.find? hc) (FieldCells.cellsAt? h hcs')

section

variable {table : Staged.Table} {P : Program} {forceCell : CellId → EvalM Value}

/-- Forcing a cell of the world gives what it stands for. -/
def Forces (table : Staged.Table) (P : Program) (forceCell : CellId → EvalM Value) : Prop :=
  ∀ ⦃Ω c w⦄, Ω c = some w → Yields table P Ω (forceCell c) fun Ω' u => Shows table P Ω' w u

/-! ## Tests -/

/-- A verdict, where there is one, is the one of the flat pattern. -/
def Verdict (b : Bool) (_ : World) (verdict : Option Bool) : Prop := ∀ v, verdict = some v → v = b

theorem decideInt_agrees {Ω : World} {p : Staged.Pattern} {accept : Int32 → Bool} {u : Value}
    {w : Flat.Value} {b : Bool} (hu : Shows table P Ω w u)
    (hb : ∀ n, w = .literal (.int n) → b = accept n) :
    Yields table P Ω (decideInt p accept u) (Verdict b) := by
  unfold decideInt
  split
  · next n =>
    cases hu with
    | neutral hn => cases hn
    | literal => exact .ret fun v hv => by cases hv; exact (hb n rfl).symm
  · split
    · exact .ret fun v hv => nomatch hv
    · exact .fail

theorem decideNeutral_agrees {Ω : World} {p : Staged.Pattern} {S S' : Bindings}
    {p' : Flat.Pattern} {w : Flat.Value} {b : Bool} (hp : Mirrors table S p p' S')
    (hb : p'.matches? w = some b) : Yields table P Ω (decideNeutral p) (Verdict b) := by
  unfold decideNeutral
  refine Yields.ofExcept.bind fun fine Ω' _ hfine => ?_
  cases fine with
  | false => exact .ret fun v hv => nomatch hv
  | true =>
    refine .ret fun v hv => ?_
    cases hv
    exact (matches?_of_irrefutable hfine hp hb).symm

/-- The verdict on several parts: what was undecided before stays undecided. -/
def VerdictAll (decided b : Bool) (_ : World) (verdict : Option Bool) : Prop :=
  ∀ v, verdict = some v → v = b ∧ (v = true → decided = true)

theorem verdictAll_here {decided here rest : Bool} {Ω : World} {verdict : Option Bool}
    (hhere : here = true) (h : VerdictAll decided rest Ω verdict) :
    VerdictAll decided (here && rest) Ω verdict := by
  rw [hhere, Bool.true_and]
  exact h

theorem verdictAll_undecided {decided here rest : Bool} {Ω : World} {verdict : Option Bool}
    (h : VerdictAll false rest Ω verdict) : VerdictAll decided (here && rest) Ω verdict := by
  intro v hv
  obtain ⟨hrest, hno⟩ := h v hv
  cases v with
  | true => cases hno rfl
  | false => exact ⟨by rw [← hrest, Bool.and_false], fun h => nomatch h⟩

mutual

/-- Where the evaluator decides a test, the flat pattern decides it the same way. -/
theorem decideMatch_agrees (hforce : Forces table P forceCell) : ∀ {p : Staged.Pattern}
    {Ω : World} {S S' : Bindings} {p' : Flat.Pattern} {u : Value} {w : Flat.Value} {b : Bool},
      Shows table P Ω w u →
      Mirrors table S p p' S' → p'.matches? w = some b →
      Yields table P Ω (decideMatch forceCell p u) (Verdict b)
  | .var .., Ω, _, _, _, u, w, b, hu, .var _, hb => by
    simp only [Flat.Pattern.matches?] at hb
    unfold decideMatch
    exact .ret fun v hv => by rw [hb] at hv; exact (Option.some.inj hv).symm
  | .wildcard _, Ω, _, _, _, u, w, b, hu, .wildcard _, hb => by
    simp only [Flat.Pattern.matches?] at hb
    unfold decideMatch
    exact .ret fun v hv => by rw [hb] at hv; exact (Option.some.inj hv).symm
  | .int info n, Ω, _, _, _, u, w, b, hu, .int _, hb => by
    unfold decideMatch
    refine decideInt_agrees hu fun m hm => ?_
    subst hm
    simp only [Flat.Pattern.matches?, Option.some.injEq] at hb
    exact hb.symm
  | .range info min max, Ω, _, _, _, u, w, b, hu, .range _, hb => by
    unfold decideMatch
    refine decideInt_agrees hu fun m hm => ?_
    subst hm
    simp only [Flat.Pattern.matches?, Option.some.injEq] at hb
    exact hb.symm
  | .tuple info ps, Ω, _, _, _, u, w, b, hu, .tuple hinfo hps, hb => by
    unfold decideMatch
    split
    · exact decideNeutral_agrees (.tuple hinfo hps) hb
    · next hn =>
      cases hu with
      | neutral hu => exact absurd hu hn
      | tuple hcells =>
        simp only [Flat.Pattern.matches?] at hb
        split at hb
        · next hl =>
          dsimp only
          split
          · exact (decideAll_agrees hforce hcells hps hl hb).mono fun _ _ _ h v hv => (h v hv).1
          · exact .fail
        · cases hb
      | _ => exact .fail
  | .list info ps, Ω, _, _, _, u, w, b, hu, .list hinfo hps, hb => by
    unfold decideMatch
    split
    · exact decideNeutral_agrees (.list hinfo hps) hb
    · next hn =>
      cases hu with
      | neutral hu => exact absurd hu hn
      | list hcells =>
        simp only [Flat.Pattern.matches?] at hb
        dsimp only
        split at hb
        · next hl =>
          rw [if_pos (by rw [← hps.length_eq, hl, hcells.length_eq])]
          exact (decideAll_agrees hforce hcells hps hl hb).mono fun _ _ _ h v hv => (h v hv).1
        · next hl =>
          rw [if_neg (by rw [← hps.length_eq, ← hcells.length_eq]; exact hl)]
          exact .ret fun v hv => by rw [hb] at hv; exact (Option.some.inj hv).symm
      | _ => exact .fail
  | .compound info fields, Ω, _, _, _, u, w, b, hu, .compound hinfo hfields, hb => by
    unfold decideMatch
    split
    · exact decideNeutral_agrees (.compound hinfo hfields) hb
    · next hn =>
      cases hu with
      | neutral hu => exact absurd hu hn
      | compound hcells =>
        simp only [Flat.Pattern.matches?] at hb
        dsimp only
        split
        · next cs hcs =>
          exact (decideFields_agrees hforce (hcells.cellsAt? hcs) hfields hb).mono
            fun _ _ _ h v hv => (h v hv).1
        · exact .fail
      | _ => exact .fail

theorem decideAll_agrees (hforce : Forces table P forceCell) : ∀ {ps : List Staged.Pattern}
    {Ω : World} {S S' : Bindings} {ps' : List Flat.Pattern} {cs : List CellId}
    {ws : List Flat.Value} {b decided : Bool},
      Cells Ω ws cs → MirrorsAll table S ps ps' S' → ps'.length = ws.length →
      Flat.Pattern.matchesAll? ps' ws = some b →
      Yields table P Ω (decideAll forceCell decided ps cs) (VerdictAll decided b)
  | [], Ω, _, _, _, cs, ws, b, decided, hcs, .nil, hl, hb => by
    simp only [Flat.Pattern.matchesAll?, Option.some.injEq] at hb
    unfold decideAll
    refine .ret fun v hv => ?_
    cases decided <;> cases hv
    exact ⟨hb, fun _ => rfl⟩
  | _ :: _, _, _, _, _, _, [], _, _, _, .cons .., hl, _ => nomatch hl
  | p :: ps, Ω, _, _, _, _, w :: ws, b, decided, .cons hc hcs, .cons hp hps, hl, hb => by
    simp only [Flat.Pattern.matchesAll?, Option.bind_eq_bind, Option.bind_eq_some_iff,
      Option.pure_def, Option.some.injEq] at hb
    obtain ⟨here, hhere, rest, hrest, rfl⟩ := hb
    have hl' := Nat.succ.inj hl
    unfold decideAll
    refine Yields.ofExcept.bind fun fine Ω₁ hle₁ hfine => ?_
    split
    · next h =>
      subst h
      exact (decideAll_agrees hforce (Cells.mono hle₁ hcs) hps hl' hrest).mono fun _ _ _ h =>
        verdictAll_here (matches?_of_irrefutable hfine hp hhere) h
    · refine (hforce (hle₁ _ _ hc)).bind fun u Ω₂ hle₂ hu => ?_
      refine (decideMatch_agrees hforce hu hp hhere).bind fun verdict Ω₃ hle₃ hv => ?_
      have hcs' := Cells.mono (World.le_trans hle₁ (World.le_trans hle₂ hle₃)) hcs
      split
      · refine .ret fun v hv' => ?_
        cases hv'
        rw [← hv false rfl]
        exact ⟨rfl, fun h => nomatch h⟩
      · exact (decideAll_agrees hforce hcs' hps hl' hrest).mono fun _ _ _ h =>
          verdictAll_here (hv true rfl).symm h
      · exact (decideAll_agrees hforce hcs' hps hl' hrest).mono fun _ _ _ h =>
          verdictAll_undecided h

theorem decideFields_agrees (hforce : Forces table P forceCell) :
    ∀ {fields : List (String × Staged.Pattern)} {Ω : World} {S S' : Bindings}
    {fields' : List (String × Flat.Pattern)} {cs : List CellId}
    {ws : List (String × Flat.Value)} {b decided : Bool},
      CellsAt Ω ws fields cs → MirrorsFields table S fields fields' S' →
      Flat.Pattern.matchesFields? ws fields' = some b →
      Yields table P Ω (decideFields forceCell decided fields cs) (VerdictAll decided b)
  | [], Ω, _, _, _, cs, ws, b, decided, hcs, .nil, hb => by
    simp only [Flat.Pattern.matchesFields?, Option.some.injEq] at hb
    unfold decideFields
    refine .ret fun v hv => ?_
    cases decided <;> cases hv
    exact ⟨hb, fun _ => rfl⟩
  | (key, p) :: rest, Ω, _, _, _, _, ws, b, decided, .cons hc hcs, .cons hp hrest', hb => by
    simp only [Flat.Pattern.matchesFields?, Option.bind_eq_bind, Option.bind_eq_some_iff,
      Option.pure_def, Option.some.injEq] at hb
    obtain ⟨w, hw, here, hhere, more, hmore, rfl⟩ := hb
    obtain ⟨w', hw', hc⟩ := hc
    rw [hw] at hw'
    cases hw'
    unfold decideFields
    refine Yields.ofExcept.bind fun fine Ω₁ hle₁ hfine => ?_
    split
    · next h =>
      subst h
      exact (decideFields_agrees hforce (CellsAt.mono hle₁ hcs) hrest' hmore).mono fun _ _ _ h =>
        verdictAll_here (matches?_of_irrefutable hfine hp hhere) h
    · refine (hforce (hle₁ _ _ hc)).bind fun u Ω₂ hle₂ hu => ?_
      refine (decideMatch_agrees hforce hu hp hhere).bind fun verdict Ω₃ hle₃ hv => ?_
      have hcs' := CellsAt.mono (World.le_trans hle₁ (World.le_trans hle₂ hle₃)) hcs
      split
      · refine .ret fun v hv' => ?_
        cases hv'
        rw [← hv false rfl]
        exact ⟨rfl, fun h => nomatch h⟩
      · exact (decideFields_agrees hforce hcs' hrest' hmore).mono fun _ _ _ h =>
          verdictAll_here (hv true rfl).symm h
      · exact (decideFields_agrees hforce hcs' hrest' hmore).mono fun _ _ _ h =>
          verdictAll_undecided h

end

/-! ## Binders -/

theorem BindM.run_bind (x : BindM Unit) (f : Unit → BindM Unit) (env : Env) (s : Store) :
    (x >>= f) env s =
      match x env s with
      | ((.ok a, env₁), s₁) => f a env₁ s₁
      | ((.error e, env₁), s₁) => ((.error e, env₁), s₁) := by
  change (match x env s with | ((r, env₁), s₁) => ExceptT.bindCont f r env₁ s₁) = _
  rcases x env s with ⟨⟨e | a, env₁⟩, s₁⟩ <;> rfl

theorem BindM.run_ofEval_bind {α : Type} (x : EvalM α) (f : α → BindM Unit) (env : Env)
    (s : Store) : (BindM.ofEval x >>= f) env s =
      match x s with
      | (.ok a, s₁) => f a env s₁
      | (.error e, s₁) => ((.error e, env), s₁) := by
  change (match x s with | (r, s₁) => ExceptT.bindCont f r env s₁) = _
  rcases x s with ⟨e | a, s₁⟩ <;> rfl

/-- A computation that binds cells which stand for flat values, one each. -/
def Binds (table : Staged.Table) (P : Program) (Ω : World) (env : Env) (x : BindM Unit)
    (ws : List Flat.Value) : Prop :=
  ∀ ⦃s env' s'⦄, Consistent table P Ω s → x env s = ((.ok (), env'), s') →
    ∃ Ω' cs, Ω ≤ Ω' ∧ Consistent table P Ω' s' ∧ env' = env.bindAll cs ∧ Cells Ω' ws cs

namespace Binds

variable {Ω : World} {env : Env}

theorem ret : Binds table P Ω env (pure ()) [] := by
  intro s env' s' hs h
  cases h
  exact ⟨Ω, [], World.le_refl Ω, hs, env.bindAll_nil.symm, .nil⟩

theorem bind {c : CellId} {w : Flat.Value} (hc : Ω c = some w) :
    Binds table P Ω env (BindM.bind c) [w] := by
  intro s env' s' hs h
  cases h
  exact ⟨Ω, [c], World.le_refl Ω, hs, rfl, .cons hc .nil⟩

theorem fail {e : Error} {ws : List Flat.Value} :
    Binds table P Ω env (BindM.ofEval (EvalM.fail e)) ws :=
  fun _ _ _ _ h => nomatch h

theorem seq {x : BindM Unit} {y : BindM Unit} {ws ws' : List Flat.Value}
    (hx : Binds table P Ω env x ws)
    (hy : ∀ Ω' cs, Ω ≤ Ω' → Binds table P Ω' (env.bindAll cs) y ws') :
    Binds table P Ω env (x >>= fun _ => y) (ws ++ ws') := by
  intro s env' s' hs h
  rw [BindM.run_bind] at h
  split at h
  · next env₁ s₁ hx' =>
    obtain ⟨Ω₁, cs, hle, hs₁, rfl, hcs⟩ := hx hs hx'
    obtain ⟨Ω₂, cs', hle', hs₂, rfl, hcs'⟩ := hy Ω₁ cs hle hs₁ h
    refine ⟨Ω₂, cs ++ cs', World.le_trans hle hle', hs₂, Env.bindAll_bindAll .., ?_⟩
    exact List.rel_append (Cells.mono hle' hcs) hcs'
  · cases h

theorem ofEval {α : Type} {x : EvalM α} {f : α → BindM Unit} {Q : World → α → Prop}
    {ws : List Flat.Value} (hx : Yields table P Ω x Q)
    (hf : ∀ a Ω', Ω ≤ Ω' → Q Ω' a → Binds table P Ω' env (f a) ws) :
    Binds table P Ω env (BindM.ofEval x >>= f) ws := by
  intro s env' s' hs h
  rw [BindM.run_ofEval_bind] at h
  split at h
  · next a s₁ hx' =>
    obtain ⟨Ω₁, hle, hs₁, hQ⟩ := hx hs hx'
    obtain ⟨Ω₂, cs, hle', hs₂, henv, hcs⟩ := hf a Ω₁ hle hQ hs₁ h
    exact ⟨Ω₂, cs, World.le_trans hle hle', hs₂, henv, hcs⟩
  · cases h

/-- The projections out of a stuck value stand for whatever the flat binder binds. -/
theorem projections {p : Staged.Pattern} {init : Value} : ∀ {Ω : World} {env : Env}
    {vs : List Var} {ws : List Flat.Value}, ws.length = vs.length →
      Binds table P Ω env (bindProjections p init vs) ws
  | Ω, env, [], [], _ => ret
  | Ω, env, v :: vs, w :: ws, hl => by
    unfold bindProjections
    refine ofEval (Yields.alloc_shows (w := w) (.neutral rfl)) fun c Ω' _ hc => ?_
    exact (bind hc).seq fun Ω'' cs _ => projections (Nat.succ.inj hl)

/-- The elements of a tuple or a list. -/
theorem elements {Ω : World} {env : Env} {u : Value} {w : Flat.Value} {vs ws : List Flat.Value}
    {ps : List Staged.Pattern} {e : Error} {onCells : List CellId → BindM Unit} :
    Shows table P Ω w u → ¬u.isNeutral = true → w = .tuple vs ∨ w = .list vs →
    (∀ cs, Cells Ω vs cs → Binds table P Ω env (onCells cs) ws) →
    Binds table P Ω env
      (match u with
      | .tuple cells | .list cells =>
        if ps.length = cells.length then onCells cells else BindM.ofEval (EvalM.fail e)
      | _ => BindM.ofEval (EvalM.fail e)) ws := by
  intro hu hn hw h
  rcases hw with rfl | rfl
  · cases hu with
    | neutral hu => exact absurd hu hn
    | tuple hcells =>
      dsimp only
      split
      · exact h _ hcells
      · exact .fail
  · cases hu with
    | neutral hu => exact absurd hu hn
    | list hcells =>
      dsimp only
      split
      · exact h _ hcells
      · exact .fail

/-- A structured pattern binds nothing without variables and projections of a stuck value; any other
value it takes apart. -/
theorem opened (hforce : Forces table P forceCell) {Ω : World} {env : Env} {c : CellId}
    {w : Flat.Value} {ws : List Flat.Value} {p : Staged.Pattern} {apart : Value → BindM Unit}
    (hc : Ω c = some w) (hlen : ws.length = p.binders.length)
    (h : ∀ Ω' u, Shows table P Ω' w u → ¬u.isNeutral = true →
      Binds table P Ω' env (apart u) ws) :
    Binds table P Ω env (do
      if p.binders.isEmpty then return
      let v ← BindM.ofEval (forceCell c)
      if v.isNeutral then bindProjections p v p.binders else apart v) ws := by
  split
  · next he =>
    rw [List.isEmpty_iff.1 he] at hlen
    rw [List.eq_nil_of_length_eq_zero hlen]
    exact .ret
  · refine .ofEval (hforce hc) fun u Ω' hle hu => ?_
    split
    · exact .projections hlen
    · next hn => exact h Ω' u hu hn

end Binds

mutual

/-- A binder binds cells that stand for what its flat form binds. -/
theorem destructure_agrees (hforce : Forces table P forceCell) : ∀ {p : Staged.Pattern}
    {Ω : World} {env : Env} {S S' : Bindings} {p' : Flat.Pattern} {c : CellId} {w : Flat.Value}
    {ws : List Flat.Value}, Ω c = some w → Mirrors table S p p' S' → p'.bind? w = some ws →
      Binds table P Ω env (destructure forceCell p c) ws
  | .var .., Ω, env, _, _, _, c, w, ws, hc, .var _, hws => by
    simp only [Flat.Pattern.bind?, Option.some.injEq] at hws
    subst hws
    unfold destructure
    exact .bind hc
  | .int .., Ω, env, _, _, _, c, w, ws, hc, .int _, hws => by
    simp only [Flat.Pattern.bind?, Option.some.injEq] at hws
    subst hws
    unfold destructure
    exact .ret
  | .range .., Ω, env, _, _, _, c, w, ws, hc, .range _, hws => by
    simp only [Flat.Pattern.bind?, Option.some.injEq] at hws
    subst hws
    unfold destructure
    exact .ret
  | .wildcard _, Ω, env, _, _, _, c, w, ws, hc, .wildcard _, hws => by
    simp only [Flat.Pattern.bind?, Option.some.injEq] at hws
    subst hws
    unfold destructure
    exact .ret
  | .tuple info ps, Ω, env, _, _, _, c, w, ws, hc, hp@(.tuple _ hps), hws => by
    unfold destructure
    refine .opened hforce hc (hp.length_bind? hws) fun Ω' u hu hn => ?_
    obtain ⟨vs, hw, hl, hws⟩ := Flat.Pattern.bind?_tuple hws
    exact .elements hu hn hw fun cs hcs => destructureAll_agrees hforce hcs hps hl hws
  | .list info ps, Ω, env, _, _, _, c, w, ws, hc, hp@(.list _ hps), hws => by
    unfold destructure
    refine .opened hforce hc (hp.length_bind? hws) fun Ω' u hu hn => ?_
    obtain ⟨vs, hw, hl, hws⟩ := Flat.Pattern.bind?_list hws
    exact .elements hu hn hw fun cs hcs => destructureAll_agrees hforce hcs hps hl hws
  | .compound info fields, Ω, env, _, _, _, c, w, ws, hc, hp@(.compound _ hfields), hws => by
    unfold destructure
    refine .opened hforce hc (hp.length_bind? hws) fun Ω' u hu hn => ?_
    cases hu with
    | neutral hu => exact absurd hu hn
    | compound hcells =>
      simp only [Flat.Pattern.bind?] at hws
      exact destructureFields_agrees hforce hcells hfields hws
    | _ => exact .fail

theorem destructureAll_agrees (hforce : Forces table P forceCell) : ∀ {ps : List Staged.Pattern}
    {Ω : World} {env : Env} {S S' : Bindings} {ps' : List Flat.Pattern} {cs : List CellId}
    {vs ws : List Flat.Value}, Cells Ω vs cs → MirrorsAll table S ps ps' S' →
      ps'.length = vs.length → Flat.Pattern.bindAll? ps' vs = some ws →
      Binds table P Ω env (destructureAll forceCell ps cs) ws
  | [], Ω, env, _, _, _, cs, vs, ws, hcs, .nil, hl, hws => by
    simp only [Flat.Pattern.bindAll?, Option.some.injEq] at hws
    subst hws
    unfold destructureAll
    exact .ret
  | _ :: _, _, _, _, _, _, _, [], _, _, .cons .., hl, _ => nomatch hl
  | p :: ps, Ω, env, _, _, _, _, v :: vs, ws, .cons hc hcs, .cons hp hps, hl, hws => by
    simp only [Flat.Pattern.bindAll?, Option.bind_eq_bind, Option.bind_eq_some_iff,
      Option.pure_def, Option.some.injEq] at hws
    obtain ⟨here, hhere, rest, hrest, rfl⟩ := hws
    unfold destructureAll
    refine .seq (destructure_agrees hforce hc hp hhere) fun Ω' ds hle => ?_
    exact destructureAll_agrees hforce (Cells.mono hle hcs) hps (Nat.succ.inj hl) hrest

theorem destructureFields_agrees (hforce : Forces table P forceCell) {record : Value} :
    ∀ {fields : List (String × Staged.Pattern)} {Ω : World} {env : Env} {S S' : Bindings}
    {fields' : List (String × Flat.Pattern)} {entries : List (String × CellId)}
    {vs : List (String × Flat.Value)} {ws : List Flat.Value}, FieldCells Ω vs entries →
      MirrorsFields table S fields fields' S' → Flat.Pattern.bindFields? vs fields' = some ws →
      Binds table P Ω env (destructureFields forceCell record entries fields) ws
  | [], Ω, env, _, _, _, _, vs, ws, hcs, .nil, hws => by
    simp only [Flat.Pattern.bindFields?, Option.some.injEq] at hws
    subst hws
    unfold destructureFields
    exact .ret
  | (key, p) :: rest, Ω, env, _, _, _, entries, vs, ws, hcs, .cons hp hrest, hws => by
    simp only [Flat.Pattern.bindFields?, Option.bind_eq_bind, Option.bind_eq_some_iff,
      Option.pure_def, Option.some.injEq] at hws
    obtain ⟨v, hv, here, hhere, more, hmore, rfl⟩ := hws
    unfold destructureFields
    split
    · exact .fail
    · next c hc =>
      obtain ⟨v', hv', hc'⟩ := FieldCells.find? hcs hc
      rw [hv] at hv'
      cases hv'
      refine .seq (destructure_agrees hforce hc' hp hhere) fun Ω' ds hle => ?_
      exact destructureFields_agrees hforce (FieldCells.mono hle hcs) hrest hmore

end

/-- Extending an environment by a binder adds cells that stand for what the flat binder binds. -/
theorem extend_agrees (hforce : Forces table P forceCell) {Ω : World} {env : Env}
    {p : Staged.Pattern} {S S' : Bindings} {p' : Flat.Pattern} {c : CellId} {w : Flat.Value}
    {ws : List Flat.Value} (hc : Ω c = some w) (hp : Mirrors table S p p' S')
    (hws : p'.bind? w = some ws) :
    Yields table P Ω (extend forceCell env p c) fun Ω' env' =>
      ∃ cs, env' = env.bindAll cs ∧ Cells Ω' ws cs := by
  intro s env' s' hs h
  have hbinds : Binds table P Ω env (destructure forceCell p c) ws :=
    destructure_agrees hforce hc hp hws
  unfold extend at h
  split at h
  · next env₁ s₁ hrun =>
    cases h
    obtain ⟨Ω', cs, hle, hs', henv, hcs⟩ := hbinds hs hrun
    exact ⟨Ω', hle, hs', cs, henv, hcs⟩
  · cases h

end

end Stagecraft.Eval
