import Mathlib
import Stagecraft.Proofs.Adequacy
import Stagecraft.Proofs.DataReadBack

/-!
# Raising the unfolding limit

A result of data that normalization finds at one limit on unfolding is the result at every higher
one (`normalize_stays`). What makes this more than `evaluate_unfolds` are the unions: read-back
takes the first alternative that does not fail, and a stuck part that fails there may not fail when
it is unfolded. A refined type is given its literal without a look at the value, so two limits can
take two alternatives and give two results (`normalize_changes_at_refined`). Where all alternatives
of a union have their refined types at the same places (`RefinedAlike`), a result of data says what
is at all other places: the two limits have the same data there (`sameData_of_unfolds`), and each
alternative reads the same data back alike (`readShape_sameData`).
-/

namespace Stagecraft.Eval

open Staged (Ty Pattern Term Table)

/-! ## Refined types at the same places -/

/-- Two types have parts of these types at one place. -/
inductive SharePlace : Ty → Ty → Ty → Ty → Prop
  | list {σ τ} : SharePlace (.list σ) (.list τ) σ τ
  | ref {σ τ} : SharePlace (.ref σ) (.ref τ) σ τ
  | compound {σs τs key σ τ} : Keyed.find? key σs = some σ → Keyed.find? key τs = some τ →
      SharePlace (.compound σs) (.compound τs) σ τ
  | tuple {σs τs σ τ} : σs.length = τs.length → (σ, τ) ∈ σs.zip τs →
      SharePlace (.tuple σs) (.tuple τs) σ τ

/-- From two types to the types of a place that both have, where aliases are looked through. -/
def Places (table : Table) (pair part : Ty × Ty) : Prop :=
  ∃ view view', resolve table pair.1 = .ok view ∧ resolve table pair.2 = .ok view' ∧
    SharePlace view view' part.1 part.2

/-- From two types to the types of a place that both have, or to an alternative of one of them. -/
inductive Descends (table : Table) : Ty × Ty → Ty × Ty → Prop
  | place {pair part} : Places table pair part → Descends table pair part
  | left {σ σ' τ} : Offers table σ σ' → Descends table (σ, τ) (σ', τ)
  | right {σ τ τ'} : Offers table τ τ' → Descends table (σ, τ) (σ, τ')

/-- Whichever alternatives are taken of the unions in two types, a place that both have is of a
refined type in both or in none. -/
def RefinedAlike (table : Table) (σ τ : Ty) : Prop :=
  ∀ pair part, Relation.ReflTransGen (Descends table) (σ, τ) pair → Places table pair part →
    (part.1.singleton? = none ↔ part.2.singleton? = none)

section

variable {table : Table} {σ σ' τ τ' : Ty}

/-- A type that is no alias offers alternatives only if it is a union of them. -/
theorem Offers.exists_union (h : Offers table σ τ) (hσ : ∀ name, σ ≠ .alias name) :
    ∃ tys, σ = .union tys ∧ τ ∈ tys := by
  obtain ⟨n, tys, hn, hmem⟩ := h
  cases n with
  | zero => cases hn
  | succ n =>
    cases σ with
    | union => cases hn; exact ⟨tys, rfl, hmem⟩
    | _ => first | cases hn | exact absurd rfl (hσ _)

theorem RefinedAlike.descends (h : RefinedAlike table σ τ) (hd : Descends table (σ, τ) (σ', τ')) :
    RefinedAlike table σ' τ' :=
  fun pair part hpair => h pair part (.head hd hpair)

theorem RefinedAlike.offered (h : RefinedAlike table σ τ)
    (hσ : Relation.ReflTransGen (Offers table) σ σ')
    (hτ : Relation.ReflTransGen (Offers table) τ τ') : RefinedAlike table σ' τ' := by
  have hleft : RefinedAlike table σ' τ := by
    induction hσ with
    | refl => exact h
    | tail _ hoffers ih => exact ih.descends (.left hoffers)
  induction hτ with
  | refl => exact hleft
  | tail _ hoffers ih => exact ih.descends (.right hoffers)

theorem RefinedAlike.intro (hplaces : ∀ part, Places table (σ, τ) part →
    (part.1.singleton? = none ↔ part.2.singleton? = none) ∧ RefinedAlike table part.1 part.2)
    (hleft : ∀ σ', Offers table σ σ' → RefinedAlike table σ' τ)
    (hright : ∀ τ', Offers table τ τ' → RefinedAlike table σ τ') : RefinedAlike table σ τ := by
  intro pair part hpair
  cases hpair using Relation.ReflTransGen.head_induction_on with
  | refl => exact fun hpart => (hplaces part hpart).1
  | head hstep hrest =>
    cases hstep with
    | place hpart => exact (hplaces _ hpart).2 pair part hrest
    | left hoffers => exact hleft _ hoffers pair part hrest
    | right hoffers => exact hright _ hoffers pair part hrest

/-- A type that is no alias and no union has no alternatives. -/
theorem not_offers (hσ : ∀ name, σ ≠ .alias name) (hσ' : ∀ tys, σ ≠ .union tys) :
    ¬ Offers table σ τ := by
  intro h
  obtain ⟨tys, rfl, -⟩ := h.exists_union hσ
  exact hσ' tys rfl

/-- Types without places and alternatives. -/
theorem refinedAlike_of_leaves (hσ : (∃ s, σ = .scalar s) ∨ ∃ l, σ = .singleton l)
    (hτ : (∃ s, τ = .scalar s) ∨ ∃ l, τ = .singleton l) : RefinedAlike table σ τ := by
  have hoffers : ∀ {u u'}, ((∃ s, u = .scalar s) ∨ ∃ l, u = .singleton l) →
      ¬ Offers table u u' := by
    rintro u u' (⟨s, rfl⟩ | ⟨l, rfl⟩) <;> exact not_offers nofun nofun
  refine .intro ?_ (fun _ h => absurd h (hoffers hσ)) fun _ h => absurd h (hoffers hτ)
  rintro part ⟨view, view', hview, -, hshare⟩
  rcases hσ with ⟨s, rfl⟩ | ⟨l, rfl⟩ <;> cases hview <;> cases hshare

end

namespace ByName

/-- Types of one place, of which one is refined if the other is, and which have their refined types
at the same places. -/
def PartAlike (table : Table) (o o' : Option Ty) : Prop :=
  ∀ σ τ, o = some σ → o' = some τ →
    (σ.singleton? = none ↔ τ.singleton? = none) ∧ RefinedAlike table σ τ

section

variable {table : Table} {σ τ view view' : Ty} {tys tys' : List (Option Ty)}

/-- The components of data at two types with their refined types at the same places. -/
theorem partsAlike_of_componentTys {v : Value} (h : RefinedAlike table σ τ)
    (hσ : resolve table σ = .ok view) (hτ : resolve table τ = .ok view')
    (htys : v.componentTys view = some tys) (htys' : v.componentTys view' = some tys') :
    List.Forall₂ (PartAlike table) tys tys' := by
  have hpart : ∀ {σ' τ'}, SharePlace view view' σ' τ' → PartAlike table (some σ') (some τ') := by
    intro σ' τ' hshare σ₁ τ₁ heq heq'
    cases heq
    cases heq'
    have hplaces : Places table (σ, τ) (σ', τ') := ⟨view, view', hσ, hτ, hshare⟩
    exact ⟨h _ _ .refl hplaces, h.descends (.place hplaces)⟩
  cases v with
  | literal => cases htys; cases htys'; exact .nil
  | array kind θs =>
    cases htys
    cases htys'
    refine List.forall₂_same.2 fun o ho σ₁ τ₁ heq heq' => ?_
    cases List.eq_of_mem_replicate ho
    cases heq
    cases heq'
    exact ⟨Iff.rfl, refinedAlike_of_leaves (.inl ⟨_, rfl⟩) (.inl ⟨_, rfl⟩)⟩
  | list θs =>
    cases view <;> cases htys
    cases view' <;> cases htys'
    refine List.forall₂_iff_zip.2 ⟨by rw [List.length_replicate, List.length_replicate], ?_⟩
    intro o o' hmem
    rw [List.zip_replicate'] at hmem
    cases List.eq_of_mem_replicate hmem
    exact hpart .list
  | compound fs =>
    cases view <;> cases htys
    cases view' <;> cases htys'
    rw [List.forall₂_map_left_iff, List.forall₂_map_right_iff]
    exact List.forall₂_same.2 fun key _ σ₁ τ₁ heq heq' =>
      hpart (.compound heq heq') σ₁ τ₁ rfl rfl
  | ref θ =>
    cases view <;> cases htys
    cases view' <;> cases htys'
    exact .cons (hpart .ref) .nil
  | tuple θs =>
    cases view with
    | tuple σs =>
      cases view' with
      | tuple τs =>
        obtain ⟨hlen, rfl⟩ := componentTys_tuple htys
        obtain ⟨hlen', rfl⟩ := componentTys_tuple htys'
        have hlengths : σs.length = τs.length := hlen.symm.trans hlen'
        rw [List.forall₂_map_left_iff, List.forall₂_map_right_iff]
        exact List.forall₂_iff_zip.2 ⟨hlengths, fun hmem => hpart (.tuple hlengths hmem)⟩
      | _ => cases htys'
    | _ => cases htys
  | closure | quote | var | apply | cond | call | test | command | splice | project => cases htys

end

/-! ## Values of the same data -/

/-- Two values of data with the same form around their components. -/
structure SameForm (v w : Value) : Prop where
  datum : v.isDatum = true
  datum' : w.isDatum = true
  head : v.head = w.head
  tys : ∀ view, v.componentTys view = w.componentTys view
  around : ∀ ty ts, v.around ty ts = w.around ty ts

theorem Value.isNeutral_of_isDatum {v : Value} (hv : v.isDatum = true) : v.isNeutral = false := by
  cases v with
  | literal | array | list | compound | ref | tuple => rfl
  | closure | quote | var | apply | cond | call | test | command | splice | project => cases hv

/-- Unfolding keeps the form of data. -/
theorem Unfolds.sameForm {v w : Value} (h : Unfolds v w) (hv : v.isDatum = true) :
    SameForm v w ∧ AllUnfold v.components w.components := by
  cases h with
  | stuck hneutral => cases (Value.isNeutral_of_isDatum hv).symm.trans hneutral
  | literal => exact ⟨⟨hv, rfl, rfl, fun _ => rfl, fun _ _ => rfl⟩, .nil⟩
  | array hparts =>
    refine ⟨⟨hv, rfl, rfl, fun view => ?_, fun _ _ => rfl⟩, hparts⟩
    rw [Value.componentTys, Value.componentTys, hparts.length_eq]
  | list hparts =>
    refine ⟨⟨hv, rfl, rfl, fun view => ?_, fun _ _ => rfl⟩, hparts⟩
    cases view <;> simp only [Value.componentTys, hparts.length_eq]
  | compound hkeys hparts =>
    refine ⟨⟨hv, rfl, rfl, fun view => ?_, fun _ _ => ?_⟩, hparts⟩
    · cases view <;> simp only [Value.componentTys, hkeys]
    · simp only [Value.around, hkeys]
  | ref hpart => exact ⟨⟨hv, rfl, rfl, fun view => by cases view <;> rfl, fun _ _ => rfl⟩,
      .cons hpart .nil⟩
  | tuple hparts =>
    refine ⟨⟨hv, rfl, rfl, fun view => ?_, fun _ _ => rfl⟩, hparts⟩
    cases view <;> simp only [Value.componentTys, hparts.length_eq]
  | closure | quote => cases hv

mutual

/-- Two values, each under its own evaluation, that are the same data at a type: at all places whose
type is not refined. -/
inductive SameData (cx cx' : Context) : Ty → Value → Value → Prop
  | intro {ty ty' view tys v w} : Relation.ReflTransGen (Offers cx.definitions) ty ty' →
      resolve cx.definitions ty' = .ok view → v.componentTys view = some tys → SameForm v w →
        SameParts cx cx' tys v.components w.components → SameData cx cx' ty v w

/-- Parts that are the same data, each at its type. -/
inductive SameParts (cx cx' : Context) : List (Option Ty) → List Thunk → List Thunk → Prop
  | nil : SameParts cx cx' [] [] []
  | cons {ty tys θ η θs ηs j j' u u'} : force (evaluate cx j) θ = .ok u →
      force (evaluate cx' j') η = .ok u' → (ty.singleton? = none → SameData cx cx' ty u u') →
        SameParts cx cx' tys θs ηs → SameParts cx cx' (some ty :: tys) (θ :: θs) (η :: ηs)

end

section

variable {cx : Context} {limit : Nat} (hlimit : cx.unfoldLimit ≤ limit)

include hlimit

theorem looksAlike_of_le (k k' : Nat) : LooksAlike (force (evaluate cx k))
    (force (evaluate { cx with unfoldLimit := limit } k')) :=
  (evaluate_unfolds hlimit k k').force

/-- Parts that read back as data unfold to the same data, if parts of values do. -/
theorem sameParts_of_unfold {j j' : Nat} {e e' : Error}
    (hdata : ∀ {u u' σ τ s s'}, Unfolds u u' → RefinedAlike cx.definitions σ τ →
      readShape cx j u σ = .ok s → s.isData = true →
        readShape { cx with unfoldLimit := limit } j' u' τ = .ok s' →
          SameData cx { cx with unfoldLimit := limit } σ u u') :
    ∀ {θs ηs : List Thunk} {tys tys' : List (Option Ty)} {ts ts' : List Term}, AllUnfold θs ηs →
      List.Forall₂ (PartAlike cx.definitions) tys tys' → tys.length = θs.length →
        readComponents (evaluate cx j) (readShape cx j) e θs tys = .ok ts →
          (∀ t ∈ ts, t.isData = true) →
            readComponents (evaluate { cx with unfoldLimit := limit } j')
              (readShape { cx with unfoldLimit := limit } j') e' ηs tys' = .ok ts' →
              SameParts cx { cx with unfoldLimit := limit } tys θs ηs
  | [], _, [], _, _, _, .nil, _, _, _, _, _ => .nil
  | _ :: _, _, none :: _, _, _, _, _, _, _, h, _, _ => nomatch h
  | _ :: _, _, some _ :: _, _, _, _, .cons .., .cons (b := none) .., _, _, _, h' => nomatch h'
  | θ :: θs, η :: ηs, some σ :: tys, some τ :: tys', ts, ts', .cons hpart hparts,
      .cons halike halikes, hlen, h, hts, h' => by
    obtain ⟨u, t, rest, hu, ht, hrest, rfl⟩ := readComponents_cons h
    obtain ⟨u', t', rest', hu', ht', hrest', rfl⟩ := readComponents_cons h'
    rw [List.forall_mem_cons] at hts
    obtain ⟨hrefined, halike⟩ := halike σ τ rfl rfl
    refine .cons hu hu' (fun hnone => ?_)
      (sameParts_of_unfold hdata hparts halikes (Nat.succ.inj hlen) hrest hts.2 hrest')
    have hnone' : τ.singleton? = none := hrefined.1 hnone
    obtain ⟨s, hs, rfl⟩ := shape_of_readBackWith hnone ht
    obtain ⟨s', hs', -⟩ := shape_of_readBackWith hnone' ht'
    have hsdata : s.isData = true := by rw [← Term.isData_withTy s σ, hts.1]
    exact hdata (looksAlike_of_le hlimit j j' hpart hu hu') halike hs hsdata hs'

/-- What reads back as data reads back, further unfolded, as the same data. -/
theorem sameData_of_unfolds (k : Nat) : ∀ {k' : Nat} {v w : Value} {σ τ : Ty} {d e : Term},
    Unfolds v w → RefinedAlike cx.definitions σ τ → readShape cx k v σ = .ok d → d.isData = true →
      readShape { cx with unfoldLimit := limit } k' w τ = .ok e →
        SameData cx { cx with unfoldLimit := limit } σ v w := by
  -- an alternative of a union is read with less fuel than the union, and its parts with less still
  induction k using Nat.strongRecOn with
  | ind k ih =>
    intro k' v w σ τ d e huv halike h hd h'
    obtain ⟨hform, hparts⟩ := huv.sameForm (isDatum_of_shape h hd)
    obtain ⟨hoffers, hview, htys, hj, hts, hdata⟩ := readsAt_of_shape hform.datum h
    obtain ⟨hoffers', hview', htys', -, hts', -⟩ := readsAt_of_shape hform.datum' h'
    have halikes := partsAlike_of_componentTys (halike.offered hoffers hoffers') hview hview' htys
      ((hform.tys _).trans htys')
    refine .intro hoffers hview htys hform (sameParts_of_unfold hlimit ?_ hparts halikes
      (length_componentTys hform.datum htys) hts (hdata hd) hts')
    intro u u' σ' τ' s s' hunfolds halike' hs hsdata hs'
    exact ih _ hj hunfolds halike' hs hsdata hs'

end

/-! ## Read-back of the same data -/

/-- Two answers are the same, unless one of them ran out of fuel. -/
def SameAnswer {α : Type} (x y : Result α) : Prop :=
  x = .error .outOfFuel ∨ y = .error .outOfFuel ∨ x = y

namespace SameAnswer

variable {α β : Type} {x y : Result α}

theorem rfl : SameAnswer x x := .inr (.inr (Eq.refl x))

theorem bind {f g : α → Result β} (h : SameAnswer x y) (hf : ∀ a, SameAnswer (f a) (g a)) :
    SameAnswer (x >>= f) (y >>= g) := by
  rcases h with rfl | rfl | rfl
  · exact .inl (Eq.refl _)
  · exact .inr (.inl (Eq.refl _))
  · cases x with
    | error e => exact .rfl
    | ok a => exact hf a

theorem orElse {x' y' : Result α} (h : SameAnswer x y) (h' : SameAnswer x' y') :
    SameAnswer (Result.orElse x x') (Result.orElse y y') := by
  rcases h with rfl | rfl | rfl
  · exact .inl (Eq.refl _)
  · exact .inr (.inl (Eq.refl _))
  · match x with
    | .ok a => exact .rfl
    | .error .outOfFuel => exact .rfl
    | .error (.failed e) => exact h'

theorem eq_of_ok {a b : α} (h : SameAnswer (Except.ok a : Result α) (.ok b)) : a = b := by
  rcases h with h | h | h <;> cases h
  exact Eq.refl a

end SameAnswer

section

variable {cx cx' : Context} {k k' : Nat}

/-- A thunk with a value has it at every amount of fuel, or the fuel runs out. -/
theorem force_eq_or {θ : Thunk} {j : Nat} {u : Value} (h : force (evaluate cx j) θ = .ok u)
    (k : Nat) : force (evaluate cx k) θ = .error .outOfFuel ∨ force (evaluate cx k) θ = .ok u := by
  rcases Nat.le_total j k with hle | hle
  · exact .inr ((force_stays hle (h ▸ nofun)).trans h)
  · by_cases hout : force (evaluate cx k) θ = .error .outOfFuel
    · exact .inl hout
    · exact .inr ((force_stays hle hout).symm.trans h)

/-- Read-back of a thunk looks at its value only where the type is not refined. -/
theorem readThunk_sameAnswer {θ η : Thunk} {j j' : Nat} {u u' : Value} {ty : Ty}
    (hu : force (evaluate cx j) θ = .ok u) (hu' : force (evaluate cx' j') η = .ok u')
    (hshape : ty.singleton? = none → SameAnswer (readShape cx k u ty) (readShape cx' k' u' ty)) :
    SameAnswer (readThunk (evaluate cx k) (readShape cx k) θ ty)
      (readThunk (evaluate cx' k') (readShape cx' k') η ty) := by
  unfold readThunk
  rcases force_eq_or hu k with hforce | hforce
  · rw [hforce]
    exact .inl rfl
  rcases force_eq_or hu' k' with hforce' | hforce'
  · rw [hforce']
    exact .inr (.inl rfl)
  rw [hforce, hforce']
  change SameAnswer (readBackWith (readShape cx k) u ty) (readBackWith (readShape cx' k') u' ty)
  unfold readBackWith
  split
  · exact .rfl
  · next hnone => exact (hshape hnone).bind fun _ => .rfl

variable (hshape : ∀ {v w : Value} {σ : Ty} (τ : Ty), SameData cx cx' σ v w →
  RefinedAlike cx.definitions σ τ → SameAnswer (readShape cx k v τ) (readShape cx' k' w τ))

include hshape

theorem readComponents_sameData (e : Error) {θs ηs : List Thunk} {tys tys' : List (Option Ty)}
    (h : SameParts cx cx' tys θs ηs) (halikes : List.Forall₂ (PartAlike cx.definitions) tys tys') :
    SameAnswer (readComponents (evaluate cx k) (readShape cx k) e θs tys')
      (readComponents (evaluate cx' k') (readShape cx' k') e ηs tys') := by
  induction halikes generalizing θs ηs with
  | nil =>
    cases h
    exact .rfl
  | @cons _ o _ _ halike _ ih =>
    cases h with
    | cons hu hu' hdata hrest =>
      cases o with
      | none => exact .rfl
      | some τ =>
        obtain ⟨hrefined, halike⟩ := halike _ τ rfl rfl
        unfold readComponents
        refine .bind (readThunk_sameAnswer hu hu' fun hnone => ?_) fun t =>
          (ih hrest).bind fun _ => .rfl
        exact hshape τ (hdata (hrefined.2 hnone)) halike

theorem readUnion_sameData {v w : Value} {σ : Ty} (e : Error) (h : SameData cx cx' σ v w) :
    ∀ tys : List Ty, (∀ τ ∈ tys, RefinedAlike cx.definitions σ τ) →
      SameAnswer (readUnion (readShape cx k) e v tys) (readUnion (readShape cx' k') e w tys)
  | [], _ => .rfl
  | τ :: tys, halike => by
    rw [List.forall_mem_cons] at halike
    exact (hshape τ h halike.1).orElse (readUnion_sameData e h tys halike.2)

theorem readDatum_sameData {v w : Value} {σ τ view : Ty} (h : SameData cx cx' σ v w)
    (halike : RefinedAlike cx.definitions σ τ) (hview : resolve cx.definitions τ = .ok view) :
    SameAnswer (readDatum (evaluate cx k) (readShape cx k) v τ view)
      (readDatum (evaluate cx' k') (readShape cx' k') w τ view) := by
  cases id h with
  | intro hoffers hview' htys hform hparts =>
    unfold readDatum atType
    rw [← hform.tys view, hform.head]
    split
    · next tys' htys' =>
      have halikes := partsAlike_of_componentTys (halike.offered hoffers .refl) hview' hview htys
        htys'
      refine (readComponents_sameData hshape _ hparts halikes).bind fun ts => ?_
      rw [hform.around]
      exact .rfl
    · refine readUnion_sameData hshape _ h _ fun alternative hmem => ?_
      exact halike.descends (.right (offers_of_resolve hview hmem))
    · exact .rfl

end

/-- Read-back of the same data at types with their refined types at the same places. -/
theorem readShape_sameData {cx cx' : Context} (htable : cx.definitions = cx'.definitions) :
    ∀ (k k' : Nat) {v w : Value} {σ : Ty} (τ : Ty), SameData cx cx' σ v w →
      RefinedAlike cx.definitions σ τ → SameAnswer (readShape cx k v τ) (readShape cx' k' w τ)
  | 0, _, _, _, _, _, _, _ => .inl rfl
  | _ + 1, 0, _, _, _, _, _, _ => .inr (.inl rfl)
  | k + 1, k' + 1, v, w, σ, τ, h, halike => by
    cases id h with
    | intro _ _ _ hform _ =>
      rw [readShape_datum hform.datum, readShape_datum hform.datum', ← htable]
      cases hview : resolve cx.definitions τ with
      | error => exact .rfl
      | ok view => exact readDatum_sameData (readShape_sameData htable k k') h halike hview

/-! ## Results -/

section

variable {cx : Context} {limit : Nat} (hlimit : cx.unfoldLimit ≤ limit)

include hlimit

/-- What reads back as data reads back, further unfolded, to the same term. -/
theorem readShape_stays {k k' : Nat} {v w : Value} {ty : Ty} {d e : Term} (huv : Unfolds v w)
    (hty : RefinedAlike cx.definitions ty ty) (h : readShape cx k v ty = .ok d)
    (hd : d.isData = true) (h' : readShape { cx with unfoldLimit := limit } k' w ty = .ok e) :
    e = d := by
  have hdata := sameData_of_unfolds hlimit k huv hty h hd h'
  have htable : cx.definitions = ({ cx with unfoldLimit := limit } : Context).definitions := rfl
  have hsame := readShape_sameData htable k k' ty hdata hty
  rw [h, h'] at hsame
  exact hsame.eq_of_ok.symm

theorem normalizeAt_stays {k k' : Nat} {t d e : Term} {ty : Ty}
    (hty : RefinedAlike cx.definitions ty ty) (h : normalizeAt cx k t ty = .ok d)
    (hd : d.isData = true) (h' : normalizeAt { cx with unfoldLimit := limit } k' t ty = .ok e) :
    e = d := by
  obtain ⟨v, hv, h⟩ := Except.bind_ok.1 h
  obtain ⟨w, hw, h'⟩ := Except.bind_ok.1 h'
  have hunfolds := evaluate_unfolds hlimit k k' .nil hv hw
  rcases readBackWith_ok h with ⟨l, hl, rfl⟩ | ⟨s, hnone, hs, rfl⟩
  · rcases readBackWith_ok h' with ⟨l', hl', rfl⟩ | ⟨s', hnone, -, -⟩
    · rw [Option.some.inj (hl'.symm.trans hl)]
    · cases hnone.symm.trans hl
  · obtain ⟨s', hs', rfl⟩ := shape_of_readBackWith hnone h'
    rw [Term.isData_withTy] at hd
    rw [readShape_stays hlimit hunfolds hty hs hd hs']

end

end ByName

/-- A result of data at one limit on unfolding is the result at every higher limit that has one, at
a type whose unions have refined types at the same places in all their alternatives. -/
theorem normalize_stays {cx : Context} {limit fuel fuel' : Nat} {t d e : Term}
    (hlimit : cx.unfoldLimit ≤ limit) (hty : RefinedAlike cx.definitions t.ty t.ty)
    (h : normalize cx fuel t = .ok d) (hd : d.isData = true)
    (h' : normalize { cx with unfoldLimit := limit } fuel' t = .ok e) : e = d := by
  obtain ⟨k, hk⟩ := ByName.exists_normalizeAt_byName h nofun
  obtain ⟨k', hk'⟩ := ByName.exists_normalizeAt_byName h' nofun
  exact ByName.normalizeAt_stays hlimit hty hk hd hk'

/-- The prelude and the identity function. -/
def identity : Table := .ofList (Staged.prelude ++
  [.function ⟨[], ⟨["main"], "same"⟩, .var (Pattern.plain .int) ⟨"x", 0⟩, .int,
    .var .int ⟨"x", 0⟩⟩])

/-- A tagged pair. -/
def taggedTy (tag : Int32) : Ty := .tuple [.singleton (.int tag), .int]

/-- Pairs with one of two tags. -/
def eitherTy : Ty := .union [taggedTy 1, taggedTy 2]

/-- A pair with a tag that is computed by a call. -/
def taggedPair : Term :=
  .tuple eitherTy [.call .int ⟨["main"], "same"⟩ (.ofLiteral (.int 1)), .ofLiteral (.int 5)]

theorem refinedAlike_taggedTy (n m : Int32) :
    RefinedAlike identity (taggedTy n) (taggedTy m) := by
  refine .intro ?_ (fun _ h => absurd h (not_offers nofun nofun))
    fun _ h => absurd h (not_offers nofun nofun)
  rintro ⟨σ, τ⟩ ⟨view, view', hview, hview', hshare⟩
  cases hview
  cases hview'
  cases hshare with
  | tuple _ hmem =>
    rcases List.mem_cons.1 hmem with heq | hmem
    · cases heq
      exact ⟨⟨nofun, nofun⟩, refinedAlike_of_leaves (.inr ⟨_, rfl⟩) (.inr ⟨_, rfl⟩)⟩
    · cases List.mem_singleton.1 hmem
      exact ⟨Iff.rfl, refinedAlike_of_leaves (.inl ⟨_, rfl⟩) (.inl ⟨_, rfl⟩)⟩

theorem refinedAlike_eitherTy : RefinedAlike identity eitherTy eitherTy := by
  have htagged : ∀ {τ}, Offers identity eitherTy τ → ∃ tag, τ = taggedTy tag := by
    intro τ h
    rcases List.mem_cons.1 h.union with rfl | hmem
    · exact ⟨1, rfl⟩
    · exact ⟨2, List.mem_singleton.1 hmem⟩
  have hplaces : ∀ {σ τ part}, σ = eitherTy ∨ τ = eitherTy → ¬ Places identity (σ, τ) part := by
    rintro σ τ part (rfl | rfl) ⟨view, view', hview, hview', hshare⟩
    · cases hview
      cases hshare
    · cases hview'
      cases hshare
  refine .intro (fun _ h => absurd h (hplaces (.inl rfl))) (fun σ hσ => ?_) fun τ hτ => ?_
  · obtain ⟨n, rfl⟩ := htagged hσ
    refine .intro (fun _ h => absurd h (hplaces (.inr rfl)))
      (fun _ h => absurd h (not_offers nofun nofun)) fun τ hτ => ?_
    obtain ⟨m, rfl⟩ := htagged hτ
    exact refinedAlike_taggedTy n m
  · obtain ⟨m, rfl⟩ := htagged hτ
    refine .intro (fun _ h => absurd h (hplaces (.inl rfl))) (fun σ hσ => ?_)
      fun _ h => absurd h (not_offers nofun nofun)
    obtain ⟨n, rfl⟩ := htagged hσ
    exact refinedAlike_taggedTy n m

/-- The call for the tag is stuck at the lower limit and unfolded at the higher one. -/
theorem normalize_stays_tagged :
    let cx : Context := ⟨identity, .prelude, 0⟩
    let d : Term := .tuple eitherTy [.literal (.singleton (.int 1)) (.int 1), .ofLiteral (.int 5)]
    normalize cx 20 taggedPair = .ok d ∧ d.isData = true ∧
      ∃ e, normalize { cx with unfoldLimit := 1 } 20 taggedPair = .ok e ∧ e = d := by
  intro cx d
  have h : normalize cx 20 taggedPair = .ok d := by cbv
  have hd : d.isData = true := by cbv
  have h' : normalize { cx with unfoldLimit := 1 } 20 taggedPair = .ok d := by cbv
  exact ⟨h, hd, d, h', normalize_stays (Nat.zero_le 1) refinedAlike_eitherTy h hd h'⟩

/-- The prelude and a function that is always true. -/
def certain : Table := .ofList (Staged.prelude ++
  [.function ⟨[], ⟨["main"], "sure"⟩, .var (Pattern.plain .int) ⟨"x", 0⟩, .bool,
    .ofLiteral (.bool true)⟩])

/-- A singleton tuple of a number or a list, or of the number nine. -/
def looseTy : Ty := .union [.tuple [.int], .tuple [.singleton (.int 9)], .tuple [.list .int]]

/-- A tuple of a number if a call is true, and of a list otherwise. -/
def looseTuple : Term :=
  .tuple looseTy [.cond (.union [.int, .list .int])
    (.call .bool ⟨["main"], "sure"⟩ (.ofLiteral (.int 0))) (.ofLiteral (.int 1))
    (.list (.list .int) [.ofLiteral (.int 2)])]

/-- Where an alternative has a refined type at a place at which another alternative has none, the
stuck part fails at the first alternative and is not looked at by the second. -/
theorem normalize_changes_at_refined :
    let d : Term := .tuple looseTy [.literal (.singleton (.int 9)) (.int 9)]
    let e : Term := .tuple looseTy [.ofLiteral (.int 1)]
    normalize ⟨certain, .prelude, 0⟩ 20 looseTuple = .ok d ∧ d.isData = true ∧
      normalize ⟨certain, .prelude, 1⟩ 20 looseTuple = .ok e ∧ e ≠ d := by
  refine ⟨by cbv, by cbv, by cbv, fun h => ?_⟩
  cases h

end Stagecraft.Eval
