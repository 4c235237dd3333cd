import Stagecraft.Proofs.MatchVerdicts

/-!
# Unfolding further

Two evaluations of one program that differ in the limit on unfolding. Where the lower limit leaves a
call stuck, the higher one goes on; everywhere else they go in step. `Unfolds` says so of values: a
stuck value unfolds to anything, every other form to the same form with parts that unfold. What has
been decided by the lower limit, the verdict of a test, the answer of a native function or the
number of variables that a binder binds, is the same at the higher one, so evaluation keeps the
relation (`evaluate_unfolds`). Nothing is said where one of the two does not give a value.
-/

namespace Stagecraft

open Staged (Ty Pattern Term Table)

namespace Eval.ByName

mutual

/-- The second value is the first one with calls in it unfolded further. -/
inductive Unfolds : Value → Value → Prop
  | stuck {v w} : v.isNeutral = true → Unfolds v w
  | literal {l} : Unfolds (.literal l) (.literal l)
  | array {kind θs ηs} : List.Forall₂ PartUnfolds θs ηs →
      Unfolds (.array kind θs) (.array kind ηs)
  | list {θs ηs} : List.Forall₂ PartUnfolds θs ηs → Unfolds (.list θs) (.list ηs)
  | compound {fs gs} : fs.map (·.1) = gs.map (·.1) →
      List.Forall₂ PartUnfolds (fs.map (·.2)) (gs.map (·.2)) → Unfolds (.compound fs) (.compound gs)
  | ref {θ η} : PartUnfolds θ η → Unfolds (.ref θ) (.ref η)
  | tuple {θs ηs} : List.Forall₂ PartUnfolds θs ηs → Unfolds (.tuple θs) (.tuple ηs)
  | closure {p b ρ σ depth} : List.Forall₂ PartUnfolds ρ σ →
      Unfolds (.closure p b ρ depth) (.closure p b σ depth)
  | quote {θ η} : PartUnfolds θ η → Unfolds (.quote θ) (.quote η)

/-- The second thunk is the first one with calls in it unfolded further. A projection out of a stuck
value can become any part. -/
inductive PartUnfolds : Thunk → Thunk → Prop
  | delayed {ρ σ depth t} : List.Forall₂ PartUnfolds ρ σ →
      PartUnfolds (.delayed ρ depth t) (.delayed σ depth t)
  | known {v w} : Unfolds v w → PartUnfolds (.known v) (.known w)
  | stuck {v η} : v.isNeutral = true → PartUnfolds (.known v) η

end

/-- Thunks with calls in them unfolded further, one by one. -/
abbrev AllUnfold : List Thunk → List Thunk → Prop := List.Forall₂ PartUnfolds

theorem AllUnfold.delayed {ρ σ : List Thunk} (h : AllUnfold ρ σ) (depth : Nat) (ts : List Term) :
    AllUnfold (ts.map (.delayed ρ depth)) (ts.map (.delayed σ depth)) := by
  rw [AllUnfold, List.forall₂_map_left_iff, List.forall₂_map_right_iff]
  exact List.forall₂_same.2 fun _ _ => .delayed h

theorem AllUnfold.stuck {θs ηs : List Thunk} (hlen : θs.length = ηs.length)
    (h : ∀ θ ∈ θs, ∃ v, θ = .known v ∧ v.isNeutral = true) : AllUnfold θs ηs := by
  refine List.forall₂_iff_zip.2 ⟨hlen, fun {θ η} hmem => ?_⟩
  obtain ⟨v, rfl, hv⟩ := h θ (List.of_mem_zip hmem).1
  exact .stuck hv

/-! ## Binders -/

section

variable {look : Thunk → Result Value}

/-- How the binder of a structured pattern goes through. -/
theorem opened_ok {p : Pattern} {apart : Value → Result (List Thunk)} {θ : Thunk}
    {θs : List Thunk} (h : opened look p apart θ = .ok θs) :
    p.binders = [] ∧ θs = [] ∨ p.binders ≠ [] ∧ ∃ v, look θ = .ok v ∧
      (v.isNeutral = true ∧ θs = projections p v ∨ v.isNeutral = false ∧ apart v = .ok θs) := by
  unfold opened at h
  split at h
  · next hnone =>
    cases h
    exact .inl ⟨List.isEmpty_iff.1 hnone, rfl⟩
  · next hsome =>
    obtain ⟨v, hv, h⟩ := Except.bind_ok.1 h
    refine .inr ⟨fun hnone => hsome (by rw [hnone]; rfl), v, hv, ?_⟩
    split at h
    · next hneutral =>
      cases h
      exact .inl ⟨hneutral, rfl⟩
    · next hneutral => exact .inr ⟨Bool.not_eq_true _ ▸ hneutral, h⟩

/-- How the binder of a tuple or list pattern goes through. -/
theorem destructure_elements {q : Pattern} {info : Staged.PatternInfo} {ps : List Pattern}
    (hq : q = .tuple info ps ∨ q = .list info ps) {θ : Thunk} {θs : List Thunk}
    (h : destructure look q θ = .ok θs) :
    q.binders = [] ∧ θs = [] ∨ q.binders ≠ [] ∧ ∃ v, look θ = .ok v ∧
      (v.isNeutral = true ∧ θs = projections q v ∨ v.isNeutral = false ∧
        ∃ parts, (v = .tuple parts ∨ v = .list parts) ∧ ps.length = parts.length ∧
          destructureAll look ps parts = .ok θs) := by
  have hopened : destructure look q = opened look q (elementsApart look q ps) := by
    rcases hq with rfl | rfl
    · exact destructure_tuple look info ps
    · exact destructure_list look info ps
  rw [hopened] at h
  refine (opened_ok h).imp_right fun ⟨hsome, v, hv, h⟩ =>
    ⟨hsome, v, hv, h.imp_right fun ⟨hneutral, hapart⟩ => ⟨hneutral, ?_⟩⟩
  unfold elementsApart at hapart
  split at hapart
  · next parts hparts =>
    split at hapart
    · next hlen =>
      refine ⟨parts, ?_, hlen, hapart⟩
      cases v with
      | tuple => exact .inl (congrArg _ (Option.some.inj hparts))
      | list => exact .inr (congrArg _ (Option.some.inj hparts))
      | _ => cases hparts
    · cases hapart
  · cases hapart

/-- How the binder of a record pattern goes through. -/
theorem destructure_fields {info : Staged.PatternInfo} {fields : List (String × Pattern)}
    {θ : Thunk} {θs : List Thunk} (h : destructure look (.compound info fields) θ = .ok θs) :
    (Pattern.compound info fields).binders = [] ∧ θs = [] ∨
      (Pattern.compound info fields).binders ≠ [] ∧ ∃ v, look θ = .ok v ∧
        (v.isNeutral = true ∧ θs = projections (.compound info fields) v ∨
          ∃ entries, v = .compound entries ∧ destructureFields look v entries fields = .ok θs) := by
  rw [destructure_compound] at h
  refine (opened_ok h).imp_right fun ⟨hsome, v, hv, h⟩ =>
    ⟨hsome, v, hv, h.imp_right fun ⟨_, hapart⟩ => ?_⟩
  cases v with
  | compound entries => exact ⟨entries, rfl, hapart⟩
  | _ => cases hapart

theorem length_destructureAll : ∀ {ps : List Pattern} {θs ηs : List Thunk},
    (∀ p ∈ ps, ∀ {θ ηs}, destructure look p θ = .ok ηs → ηs.length = p.binders.length) →
      ps.length = θs.length → destructureAll look ps θs = .ok ηs →
        ηs.length = (Pattern.bindersOfAll ps).length
  | [], _, _, _, _, h => by cases h; rfl
  | _ :: _, [], _, _, hlen, _ => nomatch hlen
  | p :: ps, θ :: θs, ηs, hps, hlen, h => by
    rw [List.forall_mem_cons] at hps
    obtain ⟨first, hfirst, h⟩ := Except.bind_ok.1 h
    obtain ⟨rest, hrest, h⟩ := Except.bind_ok.1 h
    cases h
    rw [List.length_append, Pattern.bindersOfAll, List.length_append, hps.1 hfirst,
      length_destructureAll hps.2 (Nat.succ.inj hlen) hrest]

theorem length_destructureFields {v : Value} {entries : List (String × Thunk)} :
    ∀ {fields : List (String × Pattern)} {ηs : List Thunk},
      (∀ f ∈ fields, ∀ {θ ηs}, destructure look f.2 θ = .ok ηs → ηs.length = f.2.binders.length) →
        destructureFields look v entries fields = .ok ηs →
          ηs.length = (Pattern.bindersOfFields fields).length
  | [], _, _, h => by cases h; rfl
  | (key, p) :: rest, ηs, hfields, h => by
    rw [List.forall_mem_cons] at hfields
    unfold destructureFields at h
    split at h
    · cases h
    · obtain ⟨first, hfirst, h⟩ := Except.bind_ok.1 h
      obtain ⟨rest, hrest, h⟩ := Except.bind_ok.1 h
      cases h
      rw [List.length_append, Pattern.bindersOfFields, List.length_append, hfields.1 hfirst,
        length_destructureFields hfields.2 hrest]

theorem length_elements {q : Pattern} {info : Staged.PatternInfo} {ps : List Pattern}
    (hq : q = .tuple info ps ∨ q = .list info ps)
    (hps : ∀ p ∈ ps, ∀ {θ ηs}, destructure look p θ = .ok ηs → ηs.length = p.binders.length)
    {θ : Thunk} {ηs : List Thunk} (h : destructure look q θ = .ok ηs) :
    ηs.length = q.binders.length := by
  have hbinders : q.binders = Pattern.bindersOfAll ps := by rcases hq with rfl | rfl <;> rfl
  obtain ⟨hnone, rfl⟩ | ⟨-, v, -, ⟨-, rfl⟩ | ⟨-, parts, -, hlen, h⟩⟩ := destructure_elements hq h
  · rw [hnone]
    rfl
  · exact List.length_map _
  · rw [hbinders]
    exact length_destructureAll hps hlen h

/-- A binder that goes through binds every variable. -/
theorem length_destructure (p : Pattern) : ∀ {θ : Thunk} {ηs : List Thunk},
    destructure look p θ = .ok ηs → ηs.length = p.binders.length := by
  induction p using Pattern.induction with
  | int | range | wildcard | var => intro θ ηs h; cases h; rfl
  | hole => exact fun h => nomatch h
  | list info ps ih => exact length_elements (.inr rfl) ih
  | tuple info ps ih => exact length_elements (.inl rfl) ih
  | compound info fields ih =>
    intro θ ηs h
    obtain ⟨hnone, rfl⟩ | ⟨-, v, -, ⟨-, rfl⟩ | ⟨entries, -, h⟩⟩ := destructure_fields h
    · rw [hnone]
      rfl
    · exact List.length_map _
    · exact length_destructureFields ih h

end

section

variable {look look' : Thunk → Result Value}

/-- A look at related parts gives related values, if it gives values at all. -/
def LooksAlike (look look' : Thunk → Result Value) : Prop :=
  ∀ ⦃θ η v w⦄, PartUnfolds θ η → look θ = .ok v → look' η = .ok w → Unfolds v w

/-- A pattern that binds related thunks to related thunks. -/
def BindsAlike (look look' : Thunk → Result Value) (p : Pattern) : Prop :=
  ∀ ⦃θ η θs ηs⦄, PartUnfolds θ η → destructure look p θ = .ok θs → destructure look' p η = .ok ηs →
    AllUnfold θs ηs

theorem projections_unfold {p : Pattern} {v : Value} {η : Thunk} {ηs : List Thunk}
    (h : destructure look' p η = .ok ηs) : AllUnfold (projections p v) ηs := by
  refine .stuck ?_ fun θ hθ => ?_
  · rw [length_destructure p h, projections, List.length_map]
  · obtain ⟨x, -, rfl⟩ := List.mem_map.1 hθ
    exact ⟨_, rfl, rfl⟩

theorem destructureAll_unfolds : ∀ {ps : List Pattern} {θs ηs bound bound' : List Thunk},
    (∀ p ∈ ps, BindsAlike look look' p) → AllUnfold θs ηs →
      destructureAll look ps θs = .ok bound → destructureAll look' ps ηs = .ok bound' →
        AllUnfold bound bound'
  | [], _, _, _, _, _, _, h, h' => by cases h; cases h'; exact .nil
  | _ :: _, [], [], _, _, _, _, h, h' => by cases h; cases h'; exact .nil
  | p :: ps, θ :: θs, η :: ηs, _, _, hps, .cons hθ hθs, h, h' => by
    rw [List.forall_mem_cons] at hps
    obtain ⟨first, hfirst, h⟩ := Except.bind_ok.1 h
    obtain ⟨rest, hrest, h⟩ := Except.bind_ok.1 h
    obtain ⟨first', hfirst', h'⟩ := Except.bind_ok.1 h'
    obtain ⟨rest', hrest', h'⟩ := Except.bind_ok.1 h'
    cases h
    cases h'
    exact List.rel_append (hps.1 hθ hfirst hfirst')
      (destructureAll_unfolds hps.2 hθs hrest hrest')

theorem destructureFields_unfolds {v w : Value} {fs gs : List (String × Thunk)}
    (hentries : List.Forall₂ (fun e f => e.1 = f.1 ∧ PartUnfolds e.2 f.2) fs gs) :
    ∀ {fields : List (String × Pattern)} {bound bound' : List Thunk},
      (∀ f ∈ fields, BindsAlike look look' f.2) → destructureFields look v fs fields = .ok bound →
        destructureFields look' w gs fields = .ok bound' → AllUnfold bound bound'
  | [], _, _, _, h, h' => by cases h; cases h'; exact .nil
  | (key, p) :: rest, _, _, hfields, h, h' => by
    rw [List.forall_mem_cons] at hfields
    have hfind := find?_rel hentries key
    unfold destructureFields at h h'
    revert hfind h h'
    cases Keyed.find? key fs <;> cases Keyed.find? key gs <;> intro hfind h h' <;> cases hfind
    · cases h
    · next hθ =>
      obtain ⟨first, hfirst, h⟩ := Except.bind_ok.1 h
      obtain ⟨rest, hrest, h⟩ := Except.bind_ok.1 h
      obtain ⟨first', hfirst', h'⟩ := Except.bind_ok.1 h'
      obtain ⟨rest', hrest', h'⟩ := Except.bind_ok.1 h'
      cases h
      cases h'
      exact List.rel_append (hfields.1 hθ hfirst hfirst')
        (destructureFields_unfolds hentries hfields.2 hrest hrest')

theorem BindsAlike.elements (hlook : LooksAlike look look') {q : Pattern}
    {info : Staged.PatternInfo} {ps : List Pattern} (hq : q = .tuple info ps ∨ q = .list info ps)
    (hps : ∀ p ∈ ps, BindsAlike look look' p) : BindsAlike look look' q := by
  intro θ η θs ηs hθ h h'
  rcases destructure_elements hq h with ⟨hnone, rfl⟩ | ⟨hsome, v, hv, hcase⟩ <;>
    rcases destructure_elements hq h' with ⟨hnone', rfl⟩ | ⟨hsome', w, hw, hcase'⟩
  · exact .nil
  · exact absurd hnone hsome'
  · exact absurd hnone' hsome
  rcases hcase with ⟨-, rfl⟩ | ⟨hknown, parts, hparts, -, hbound⟩
  · exact projections_unfold h'
  have hrest : ∀ ηs', AllUnfold parts ηs' → (w = .tuple ηs' ∨ w = .list ηs') → AllUnfold θs ηs := by
    intro ηs' hηs hw'
    rcases hcase' with ⟨hneutral, -⟩ | ⟨-, parts', hparts', -, hbound'⟩
    · rcases hw' with rfl | rfl <;> cases hneutral
    · obtain rfl : ηs' = parts' := by
        rcases hw' with rfl | rfl <;> rcases hparts' with heq | heq <;> cases heq <;> rfl
      exact destructureAll_unfolds hps hηs hbound hbound'
  have hvw := hlook hθ hv hw
  rcases hparts with rfl | rfl
  · cases hvw with
    | stuck hv => cases hv
    | tuple hθs => exact hrest _ hθs (.inl rfl)
  · cases hvw with
    | stuck hv => cases hv
    | list hθs => exact hrest _ hθs (.inr rfl)

/-- Binders bind related thunks to related thunks. -/
theorem bindsAlike (hlook : LooksAlike look look') (p : Pattern) : BindsAlike look look' p := by
  induction p using Pattern.induction with
  | int | range | wildcard =>
    intro θ η θs ηs hθ h h'
    cases h
    cases h'
    exact .nil
  | var =>
    intro θ η θs ηs hθ h h'
    cases h
    cases h'
    exact .cons hθ .nil
  | hole => exact fun _ _ _ _ _ h _ => nomatch h
  | list info ps ih => exact .elements hlook (.inr rfl) ih
  | tuple info ps ih => exact .elements hlook (.inl rfl) ih
  | compound info fields ih =>
    intro θ η θs ηs hθ h h'
    rcases destructure_fields h with ⟨hnone, rfl⟩ | ⟨hsome, v, hv, hcase⟩ <;>
      rcases destructure_fields h' with ⟨hnone', rfl⟩ | ⟨hsome', w, hw, hcase'⟩
    · exact .nil
    · exact absurd hnone hsome'
    · exact absurd hnone' hsome
    rcases hcase with ⟨-, rfl⟩ | ⟨entries, rfl, hbound⟩
    · exact projections_unfold h'
    · cases hlook hθ hv hw with
      | stuck hv => cases hv
      | compound hkeys hparts =>
        rcases hcase' with ⟨hw, -⟩ | ⟨entries', heq, hbound'⟩
        · cases hw
        · cases heq
          exact destructureFields_unfolds (forall₂_entries hkeys hparts) ih hbound hbound'

/-! ## Tests -/

/-- A pattern that gives related values the same verdict, where the first one has a verdict. -/
def TestsAlike (look look' : Thunk → Result Value) (p : Pattern) : Prop :=
  ∀ ⦃v w o o'⦄, Unfolds v w → decideMatch look p v = .ok o → decideMatch look' p w = .ok o' →
    Keeps o o'

/-- The verdict of a pattern that matches everything. -/
theorem eq_true_of_irrefutable {p : Pattern} {v : Value} {o : Option Bool}
    (hp : irrefutable p = .ok true) (h : decideMatch look p v = .ok o) : o = some true := by
  cases p with
  | hole | int | range | list => cases hp
  | var | wildcard => cases h; rfl
  | tuple info ps =>
    unfold decideMatch at h
    split at h
    · unfold decideNeutral at h
      rw [hp] at h
      cases h
      rfl
    · split at h
      · split at h
        · rw [decideAll_of_irrefutable _ hp] at h
          cases h
          rfl
        · cases h
      · cases h
  | compound info fields =>
    unfold decideMatch at h
    split at h
    · unfold decideNeutral at h
      rw [hp] at h
      cases h
      rfl
    · split at h
      · split at h
        · have hsure := (allFieldsIrrefutable_eq fields).symm.trans hp
          rw [decideFields_eq, decideAll_of_irrefutable _ hsure] at h
          cases h
          rfl
        · cases h
      · cases h

theorem decideAll_keeps (hlook : LooksAlike look look') : ∀ {ps : List Pattern}
    {θs ηs : List Thunk}, (∀ p ∈ ps, TestsAlike look look' p) → AllUnfold θs ηs →
      ∀ {decided decided' : Bool} {o o' : Option Bool}, (decided = true → decided' = true) →
        decideAll look decided ps θs = .ok o → decideAll look' decided' ps ηs = .ok o' →
          Keeps o o'
  | [], _, _, _, _, _, _, _, _, hle, h, h' => by cases h; cases h'; exact .finish hle
  | _ :: _, [], [], _, _, _, _, _, _, hle, h, h' => by cases h; cases h'; exact .finish hle
  | p :: ps, θ :: θs, η :: ηs, hps, .cons hθ hθs, decided, decided', o, o', hle, h, h' => by
    rw [List.forall_mem_cons] at hps
    unfold decideAll at h h'
    obtain ⟨certain, hcertain, h⟩ := Except.bind_ok.1 h
    obtain ⟨certain', hcertain', h'⟩ := Except.bind_ok.1 h'
    rw [hcertain] at hcertain'
    cases hcertain'
    cases certain with
    | true => exact decideAll_keeps hlook hps.2 hθs hle h h'
    | false =>
      obtain ⟨v, hv, h⟩ := Except.bind_ok.1 h
      obtain ⟨o₁, ho₁, h⟩ := Except.bind_ok.1 h
      obtain ⟨w, hw, h'⟩ := Except.bind_ok.1 h'
      obtain ⟨o₁', ho₁', h'⟩ := Except.bind_ok.1 h'
      have hkeeps := hps.1 (hlook hθ hv hw) ho₁ ho₁'
      cases o₁ with
      | some b =>
        cases hkeeps b rfl
        cases b with
        | false =>
          cases h
          cases h'
          exact fun _ => id
        | true => exact decideAll_keeps hlook hps.2 hθs hle h h'
      | none =>
        have hrest : decideAll look false ps θs = .ok o := h
        cases o₁' with
        | none => exact decideAll_keeps hlook hps.2 hθs id hrest h'
        | some b' =>
          cases b' with
          | false =>
            cases h'
            intro b hb
            cases b with
            | false => rfl
            | true => exact absurd (hb ▸ hrest) decideAll_false_ne_true
          | true =>
            exact decideAll_keeps hlook hps.2 hθs (absurd · Bool.false_ne_true) hrest h'

/-- The test of a record, where it ends. -/
theorem decideMatch_fields {info : Staged.PatternInfo} {fields : List (String × Pattern)}
    {fs : List (String × Thunk)} {o : Option Bool}
    (h : decideMatch look (.compound info fields) (.compound fs) = .ok o) :
    ∃ θs, partsAt? fs fields = some θs ∧ decideAll look true (fields.map (·.2)) θs = .ok o := by
  cases hθs : partsAt? fs fields with
  | some θs =>
    rw [decideMatch_compound hθs] at h
    exact ⟨θs, rfl, h⟩
  | none =>
    unfold decideMatch at h
    simp only [Value.isNeutral, Bool.false_eq_true, if_false, hθs] at h
    cases h

/-- A stuck value with a verdict is at a pattern that matches everything. -/
theorem Keeps.of_neutral {p : Pattern} {v w : Value} {o o' : Option Bool}
    (hv : v.isNeutral = true) (h : decideMatch look p v = .ok o)
    (h' : decideMatch look' p w = .ok o') : Keeps o o' := by
  rintro b rfl
  obtain ⟨hp, rfl⟩ := irrefutable_of_neutral hv h
  exact eq_true_of_irrefutable hp h'

/-- Tests give related values the same verdict. -/
theorem testsAlike (hlook : LooksAlike look look') (p : Pattern) : TestsAlike look look' p := by
  induction p using Pattern.induction with
  | hole => exact fun _ _ _ _ _ h _ => nomatch h
  | var | wildcard =>
    intro v w o o' _ h h'
    cases h
    cases h'
    exact fun _ => id
  | int | range =>
    intro v w o o' hvw h h'
    cases hvw with
    | stuck hv => exact .of_neutral hv h h'
    | literal =>
      unfold decideMatch at h h'
      rw [h] at h'
      cases h'
      exact fun _ => id
    | array | list | compound | ref | tuple | closure | quote => cases h
  | list info ps ih =>
    intro v w o o' hvw h h'
    cases hvw with
    | stuck hv => exact .of_neutral hv h h'
    | list hθs =>
      rw [decideMatch_list, hθs.length_eq] at h
      rw [decideMatch_list] at h'
      split at h'
      · next hlen =>
        rw [if_pos hlen] at h
        exact decideAll_keeps hlook ih hθs id h h'
      · next hlen =>
        rw [if_neg hlen] at h
        cases h
        cases h'
        exact fun _ => id
    | literal | array | compound | ref | tuple | closure | quote => cases h
  | tuple info ps ih =>
    intro v w o o' hvw h h'
    cases hvw with
    | stuck hv => exact .of_neutral hv h h'
    | tuple hθs =>
      rw [decideMatch_tuple, hθs.length_eq] at h
      rw [decideMatch_tuple] at h'
      split at h'
      · next hlen =>
        rw [if_pos hlen] at h
        exact decideAll_keeps hlook ih hθs id h h'
      · cases h'
    | literal | array | compound | ref | list | closure | quote => cases h
  | compound info fields ih =>
    intro v w o o' hvw h h'
    cases hvw with
    | stuck hv => exact .of_neutral hv h h'
    | @compound fs gs hkeys hparts =>
      have hrel := partsAt?_rel (forall₂_entries hkeys hparts) fields
      obtain ⟨θs, hθs, h⟩ := decideMatch_fields h
      obtain ⟨ηs, hηs, h'⟩ := decideMatch_fields h'
      rw [hθs, hηs] at hrel
      cases hrel with
      | some hrel =>
        refine decideAll_keeps hlook (fun p hp => ?_) hrel id h h'
        obtain ⟨f, hf, rfl⟩ := List.mem_map.1 hp
        exact ih f hf
    | literal | array | list | ref | tuple | closure | quote => cases h

/-! ## Native functions -/

/-- What a native function sees of a value it sees of the related one, or it sees nothing. -/
theorem Unfolds.seen {v w : Value} (h : Unfolds v w) :
    v.seen = w.seen ∨ v.seen.int? = none ∧ v.seen.bool? = none := by
  cases h with
  | literal => exact .inl rfl
  | stuck hv =>
    cases v with
    | literal => cases hv
    | _ => exact .inr ⟨rfl, rfl⟩
  | array | list | compound | ref | tuple | closure | quote => exact .inr ⟨rfl, rfl⟩

/-- An answer of a native function needs both operands. -/
theorem onPair_unfolds {n : Native} {v v' w w' : Value} (h : Unfolds v w) (h' : Unfolds v' w')
    {l : Literal} (hl : n.onPair v.seen v'.seen = some l) : n.onPair w.seen w'.seen = some l := by
  rcases h.seen with heq | ⟨hint, hbool⟩ <;> rcases h'.seen with heq' | ⟨hint', hbool'⟩
  · rwa [← heq, ← heq']
  · cases n <;> simp [Native.onPair, hint', hbool'] at hl
  · cases n <;> simp [Native.onPair, hint, hbool] at hl
  · cases n <;> simp [Native.onPair, hint, hbool] at hl

theorem Unfolds.bool? {v w : Value} (h : Unfolds v w) {b : Bool} (hv : v.seen.bool? = some b) :
    w.seen.bool? = some b := by
  rcases h.seen with heq | ⟨-, hnone⟩
  · rwa [← heq]
  · rw [hnone] at hv
    cases hv

/-- A binary native function on a pair. -/
theorem runNative_tuple {n : Native} (hn : n ≠ .boolNot) (x y : Thunk) :
    runNative look n (.tuple [x, y]) = do
      let a ← look x
      let b ← look y
      return (n.onPair a.seen b.seen).map .literal := by
  cases n with
  | boolNot => exact absurd rfl hn
  | _ => rfl

/-- How a native function comes to an answer. -/
theorem runNative_answer {n : Native} {v a : Value} (h : runNative look n v = .ok (some a)) :
    (∃ b, n = .boolNot ∧ v.seen.bool? = some b ∧ a = .literal (.bool (!b))) ∨
      ∃ x y u u' l, n ≠ .boolNot ∧ v = .tuple [x, y] ∧ look x = .ok u ∧ look y = .ok u' ∧
        n.onPair u.seen u'.seen = some l ∧ a = .literal l := by
  by_cases hn : n = .boolNot
  · subst hn
    obtain ⟨b, hb, ha⟩ := Option.map_eq_some_iff.1 (Except.ok.inj h)
    exact .inl ⟨b, rfl, hb, ha.symm⟩
  · unfold runNative at h
    split at h
    · exact absurd rfl hn
    · next x y _ hpair =>
      obtain ⟨u, hu, h⟩ := Except.bind_ok.1 h
      obtain ⟨u', hu', h⟩ := Except.bind_ok.1 h
      obtain ⟨l, hl, ha⟩ := Option.map_eq_some_iff.1 (Except.ok.inj h)
      have hv : v = .tuple [x, y] := by
        unfold Value.pair? at hpair
        split at hpair
        · cases hpair
          rfl
        · cases hpair
      exact .inr ⟨x, y, u, u', l, hn, hv, hu, hu', hl, ha.symm⟩
    · cases h

/-- The answer of a native function stays. -/
theorem runNative_unfolds (hlook : LooksAlike look look') {n : Native} {v w a : Value}
    {r : Option Value} (hvw : Unfolds v w) (h : runNative look n v = .ok (some a))
    (h' : runNative look' n w = .ok r) : r = some a ∧ Unfolds a a := by
  rcases runNative_answer h with ⟨b, rfl, hb, rfl⟩ | ⟨x, y, u, u', l, hn, rfl, hu, hu', hl, rfl⟩
  · have hw : runNative look' .boolNot w = .ok (some (.literal (.bool (!b)))) := by
      simp only [runNative, hvw.bool? hb, Option.map_some]
    rw [hw] at h'
    cases h'
    exact ⟨rfl, .literal⟩
  · cases hvw with
    | stuck hv => cases hv
    | tuple hθs =>
      match hθs with
      | .cons hx (.cons hy .nil) =>
        rw [runNative_tuple hn] at h'
        obtain ⟨z, hz, h'⟩ := Except.bind_ok.1 h'
        obtain ⟨z', hz', h'⟩ := Except.bind_ok.1 h'
        rw [onPair_unfolds (hlook hx hu hz) (hlook hy hu' hz') hl] at h'
        cases h'
        exact ⟨rfl, .literal⟩

end

/-! ## Evaluation -/

/-- An evaluation of related environments gives related values, if it gives values at all. -/
def EvaluatesAlike (eval eval' : Evaluation) : Prop :=
  ∀ ⦃ρ σ depth t v w⦄, AllUnfold ρ σ → eval ρ depth t = .ok v → eval' σ depth t = .ok w →
    Unfolds v w

section

variable {eval eval' : Evaluation} (heval : EvaluatesAlike eval eval')

include heval

theorem EvaluatesAlike.force : LooksAlike (force eval) (force eval') := by
  intro θ η v w hθ hv hw
  cases hθ with
  | delayed hρ => exact heval hρ hv hw
  | known hvw =>
    cases hv
    cases hw
    exact hvw
  | stuck hneutral =>
    cases hv
    exact .stuck hneutral

theorem enterBody_unfolds {ρ σ : List Thunk} (hρ : AllUnfold ρ σ) {depth : Nat} {p : Pattern}
    {θ η : Thunk} (hθ : PartUnfolds θ η) {b : Term} {v w : Value}
    (h : enterBody eval ρ depth p θ b = .ok v) (h' : enterBody eval' σ depth p η b = .ok w) :
    Unfolds v w := by
  obtain ⟨θs, hθs, h⟩ := Except.bind_ok.1 h
  obtain ⟨ηs, hηs, h'⟩ := Except.bind_ok.1 h'
  exact heval (List.rel_append hρ (bindsAlike heval.force p hθ hθs hηs)) h h'

variable {cx : Context} {limit : Nat} (hlimit : cx.unfoldLimit ≤ limit)

include hlimit

theorem call_unfolds {ρ σ : List Thunk} (hρ : AllUnfold ρ σ) {depth : Nat} {name : DefName}
    {a : Term} {v w : Value} (h : call cx eval ρ depth name a = .ok v)
    (h' : call { cx with unfoldLimit := limit } eval' σ depth name a = .ok w) : Unfolds v w := by
  unfold call at h h'
  dsimp only at h'
  split at h
  · next f hf =>
    simp only [hf] at h'
    split at h
    · next hbuiltin =>
      rw [if_pos hbuiltin] at h'
      split at h
      · cases h
      · next native hnative =>
        simp only [hnative] at h'
        obtain ⟨u, hu, h⟩ := Except.bind_ok.1 h
        obtain ⟨r, hr, h⟩ := Except.bind_ok.1 h
        obtain ⟨u', hu', h'⟩ := Except.bind_ok.1 h'
        obtain ⟨r', hr', h'⟩ := Except.bind_ok.1 h'
        cases r with
        | none =>
          cases h
          exact .stuck rfl
        | some a =>
          obtain ⟨rfl, ha⟩ := runNative_unfolds heval.force (heval hρ hu hu') hr hr'
          cases h
          cases h'
          exact ha
    · next hbuiltin =>
      rw [if_neg hbuiltin] at h'
      split at h
      · obtain ⟨u, -, h⟩ := Except.bind_ok.1 h
        cases h
        exact .stuck rfl
      · next hdepth =>
        rw [if_neg (by omega)] at h'
        exact enterBody_unfolds heval .nil (.delayed hρ) h h'
  · cases h
  · cases h
  · obtain ⟨u, -, h⟩ := Except.bind_ok.1 h
    cases h
    exact .stuck rfl

theorem evaluateWith_unfolds {ρ σ : List Thunk} (hρ : AllUnfold ρ σ) {depth : Nat} {t : Term}
    {v w : Value} (h : evaluateWith cx eval ρ depth t = .ok v)
    (h' : evaluateWith { cx with unfoldLimit := limit } eval' σ depth t = .ok w) :
    Unfolds v w := by
  cases t with
  | literal _ l => cases h; cases h'; exact .literal
  | array _ kind es => cases h; cases h'; exact .array (hρ.delayed depth es)
  | list _ es => cases h; cases h'; exact .list (hρ.delayed depth es)
  | compound _ fields =>
    cases h
    cases h'
    refine .compound ?_ ?_
    · simp only [List.map_map, Function.comp_def]
    · have hparts := hρ.delayed depth (fields.map (·.2))
      simpa only [List.map_map, Function.comp_def] using hparts
  | ref _ e => cases h; cases h'; exact .ref (.delayed hρ)
  | tuple _ es => cases h; cases h'; exact .tuple (hρ.delayed depth es)
  | lambda _ binder body => cases h; cases h'; exact .closure hρ
  | apply _ f a =>
    obtain ⟨u, hu, h⟩ := Except.bind_ok.1 h
    obtain ⟨u', hu', h'⟩ := Except.bind_ok.1 h'
    have hf := heval hρ hu hu'
    cases hf with
    | closure hcaptured => exact enterBody_unfolds heval hcaptured (.delayed hρ) h h'
    | stuck hneutral =>
      cases u with
      | closure => cases hneutral
      | _ => cases h; exact .stuck rfl
    | literal | array | list | compound | ref | tuple | quote => cases h; exact .stuck rfl
  | cond _ c a b =>
    obtain ⟨u, hu, h⟩ := Except.bind_ok.1 h
    obtain ⟨u', hu', h'⟩ := Except.bind_ok.1 h'
    have hc := heval hρ hu hu'
    split at h
    · next hb =>
      simp only [hc.bool? hb] at h'
      exact heval hρ h h'
    · next hb =>
      simp only [hc.bool? hb] at h'
      exact heval hρ h h'
    · cases h
      exact .stuck rfl
  | letIn _ binder init body => exact enterBody_unfolds heval hρ (.delayed hρ) h h'
  | var _ x =>
    have hrel := getElem?_rel hρ x.level
    rw [evaluateWith] at h h'
    split at h
    · next θ hθ =>
      rw [hθ] at hrel
      split at h'
      · next η hη =>
        rw [hη] at hrel
        cases hrel with
        | some hθη => exact heval.force hθη h h'
      · next hη =>
        rw [hη] at hrel
        cases hrel
    · cases h
      exact .stuck rfl
  | call _ name a => exact call_unfolds heval hlimit hρ h h'
  | test _ e p =>
    obtain ⟨u, hu, h⟩ := Except.bind_ok.1 h
    obtain ⟨o, ho, h⟩ := Except.bind_ok.1 h
    obtain ⟨u', hu', h'⟩ := Except.bind_ok.1 h'
    obtain ⟨o', ho', h'⟩ := Except.bind_ok.1 h'
    cases o with
    | none => cases h; exact .stuck rfl
    | some b =>
      obtain rfl := testsAlike heval.force p (heval hρ hu hu') ho ho' b rfl
      cases h
      cases h'
      exact .literal
  | command => cases h; exact .stuck rfl
  | quote _ e => cases h; cases h'; exact .quote (.delayed hρ)
  | splice _ e =>
    obtain ⟨u, hu, h⟩ := Except.bind_ok.1 h
    obtain ⟨u', hu', h'⟩ := Except.bind_ok.1 h'
    have he := heval hρ hu hu'
    cases he with
    | quote hθ => exact heval.force hθ h h'
    | stuck hneutral =>
      cases u with
      | quote => cases hneutral
      | _ => cases h; exact .stuck rfl
    | literal | array | list | compound | ref | tuple | closure => cases h; exact .stuck rfl
  | hole => cases h

end

/-- A higher limit on unfolding gives, where both limits give values, the value of the lower one
with calls in it unfolded further. -/
theorem evaluate_unfolds {cx : Context} {limit : Nat} (hlimit : cx.unfoldLimit ≤ limit) :
    ∀ k k', EvaluatesAlike (evaluate cx k) (evaluate { cx with unfoldLimit := limit } k')
  | 0, _ => fun _ _ _ _ _ _ _ h _ => nomatch h
  | _ + 1, 0 => fun _ _ _ _ _ _ _ _ h' => nomatch h'
  | k + 1, k' + 1 => fun _ _ _ _ _ _ hρ h h' =>
    evaluateWith_unfolds (evaluate_unfolds hlimit k k') hlimit hρ h h'

end Eval.ByName

end Stagecraft
