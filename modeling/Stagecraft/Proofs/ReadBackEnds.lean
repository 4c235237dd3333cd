import Stagecraft.Proofs.DataReadBack

/-!
# When reading data back ends

Reading data back goes into the parts of a value, and at a union it tries the alternatives on the
same value. It looks through chains of aliases within bounds, but nothing bounds how often an
alternative leads back to the union itself. So it ends at every type of a table in which no alias
offers itself as an alternative (`normalizeAt_ends_of_isData`); aliases that are aliases of each
other do no harm. Where a first alternative leads on to unions forever, reading back anything but a
literal or an array never ends (`normalizeAt_diverges`).
-/

namespace Stagecraft

open Staged (Ty Term Table)

/-- A term whose value has a form that only some types have a place for. -/
def Staged.Term.isComposite : Term → Bool
  | .list .. | .compound .. | .ref .. | .tuple .. => true
  | .literal .. | .array .. | .lambda .. | .apply .. | .cond .. | .letIn .. | .var .. | .call ..
  | .test .. | .command .. | .quote .. | .splice .. | .hole _ => false

namespace Eval

/-! ## Aliases that do not offer themselves -/

section

variable {table : Table}

theorem offers_union {tys : List Ty} {ty : Ty} (h : ty ∈ tys) : Offers table (.union tys) ty :=
  ⟨1, tys, rfl, h⟩

mutual

/-- A type offers, at last, the aliases that it is made of through unions. -/
theorem offers_aliases : ∀ (ty : Ty) {name : DefName}, name ∈ ty.aliases →
    Relation.ReflTransGen (Offers table) ty (.alias name)
  | .alias _, _, h => List.mem_singleton.1 h ▸ .refl
  | .union tys, _, h => by
    obtain ⟨ty, hty, hreaches⟩ := exists_offers_aliases tys h
    exact .head (offers_union hty) hreaches
  | .scalar _, _, h | .singleton _, _, h | .array _, _, h | .list _, _, h | .compound _, _, h
  | .ref _, _, h | .tuple _, _, h | .function .., _, h | .code _, _, h | .var _, _, h
  | .hole, _, h => nomatch h

theorem exists_offers_aliases : ∀ (tys : List Ty) {name : DefName},
    name ∈ Ty.aliasesOfAll tys →
      ∃ ty ∈ tys, Relation.ReflTransGen (Offers table) ty (.alias name)
  | t :: ts, name, h => by
    rw [Ty.aliasesOfAll] at h
    rcases List.mem_append.1 h with h | h
    · exact ⟨t, List.mem_cons_self, offers_aliases t h⟩
    · obtain ⟨ty, hty, hreaches⟩ := exists_offers_aliases ts h
      exact ⟨ty, List.mem_cons_of_mem _ hty, hreaches⟩

end

/-- Going from a union to one of its alternatives ends at every type, if no alias comes back to
itself that way. -/
theorem wellFounded_offers_of_aliases
    (h : ∀ name, ¬ Relation.TransGen (Offers table) (.alias name) (.alias name)) :
    WellFounded fun u t => Offers table t u := by
  let Reaches (a b : DefName) : Prop := Relation.TransGen (Offers table) (.alias a) (.alias b)
  have hdefined : ∀ a b, Reaches a b → a ∈ table.definitions.map Staged.Definition.name := by
    intro a b hab
    obtain ⟨u, hu, -⟩ := Relation.TransGen.head'_iff.1 hab
    obtain ⟨body, hbody, -⟩ := hu.alias
    exact Table.mem_of_alias? hbody
  have hirrefl : ∀ name, ¬ Relation.TransGen Reaches name name := by
    intro name hcycle
    have htrans : ∀ a b, Relation.TransGen Reaches a b → Reaches a b := by
      intro a b hab
      induction hab with
      | single hab => exact hab
      | tail _ hbc ih => exact ih.trans hbc
    exact h name (htrans name name hcycle)
  have haliases : ∀ name, Acc (fun u t => Offers table t u) (.alias name) := by
    intro name
    induction name using (Table.wellFounded_of_defined hdefined hirrefl).induction with
    | _ name ih =>
      refine ⟨_, fun u hu => acc_offers_of_aliases u fun b hb => ih b ?_⟩
      exact Relation.TransGen.head' hu (offers_aliases u hb)
  exact ⟨fun ty => acc_offers_of_aliases ty fun name _ => haliases name⟩

end

namespace ByName

/-! ## Data settles -/

section

variable {cx : Context} {depth : Nat}

mutual

/-- The value of a term made only of data is settled. -/
theorem settles_of_isData : ∀ (t : Term) {ρ : List Thunk}, t.isData = true →
    (Thunk.delayed ρ depth t).Settles cx
  | .literal .., _, _ => .succ (.ret .literal)
  | .array _ _ es, _, h | .list _ es, _, h | .tuple _ es, _, h =>
    .succ (.ret (.of_parts rfl (allSettle_of_isData es h) (List.forall_mem_nil _)))
  | .compound _ fields, _, h =>
    .succ (.ret (.of_parts rfl (allSettle_of_isDataFields fields h) (List.forall_mem_nil _)))
  | .ref _ e, _, h =>
    .succ (.ret (.of_parts rfl (.singleton (settles_of_isData e h)) (List.forall_mem_nil _)))
  | .lambda .., _, h | .apply .., _, h | .cond .., _, h | .letIn .., _, h | .var .., _, h
  | .call .., _, h | .test .., _, h | .command .., _, h | .quote .., _, h | .splice .., _, h
  | .hole _, _, h => nomatch h

theorem allSettle_of_isData : ∀ (es : List Term) {ρ : List Thunk},
    Term.allEverywhere Term.isDatum es = true → AllSettle cx (es.map (.delayed ρ depth))
  | [], _, _ => .nil
  | e :: es, _, h => by
    obtain ⟨he, hes⟩ := Bool.and_eq_true_iff.1 h
    exact (AllSettle.singleton (settles_of_isData e he)).append (allSettle_of_isData es hes)

theorem allSettle_of_isDataFields : ∀ (fields : List (String × Term)) {ρ : List Thunk},
    Term.fieldsEverywhere Term.isDatum fields = true →
      AllSettle cx ((fields.map fun f => (f.1, Thunk.delayed ρ depth f.2)).map (·.2))
  | [], _, _ => .nil
  | (_, e) :: rest, _, h => by
    obtain ⟨he, hrest⟩ := Bool.and_eq_true_iff.1 h
    exact (AllSettle.singleton (settles_of_isData e he)).append
      (allSettle_of_isDataFields rest hrest)

end

end

end ByName

/-- Data reads back at every type, or fails to, if no alias offers itself. -/
theorem normalizeAt_ends_of_isData {cx : Context}
    (haliases : ∀ name, ¬ Relation.TransGen (Offers cx.definitions) (.alias name) (.alias name))
    {t : Term} (ht : t.isData = true) (ty : Ty) :
    ∃ r, r ≠ .error .outOfFuel ∧ ∃ n, ∀ fuel, n ≤ fuel → normalizeAt cx fuel t ty = r := by
  have hoffers := wellFounded_offers_of_aliases haliases
  have hsettles : (ByName.Thunk.delayed [] 0 t).Settles cx := ByName.settles_of_isData t ht
  have hends : ByName.Ends (fun k => ByName.normalizeAt cx k t ty) fun _ => True :=
    ByName.Ends.bind hsettles fun v _ hv =>
      ByName.readBackWith_ends (ByName.readShape_ends_of_offers hoffers hv) ty
  cases hends with
  | @ok a hy _ =>
    obtain ⟨n, hn⟩ := hy
    exact ⟨.ok a, nofun, n, fun k hk => ByName.normalizeAt_eq_of_byName (hn k hk) nofun⟩
  | @failed e hy =>
    obtain ⟨n, hn⟩ := hy
    exact ⟨.error (.failed e), nofun, n,
      fun k hk => ByName.normalizeAt_eq_of_byName (hn k hk) nofun⟩

/-! ## First alternatives that lead on forever -/

/-- A set of types each of which is a union, behind aliases, whose first alternative is in the set
again. -/
def OffersFirst (table : Table) (S : Ty → Prop) : Prop :=
  ∀ ty, S ty → ∃ alternative rest,
    resolve table ty = .ok (.union (alternative :: rest)) ∧ S alternative

section

variable {cx : Context} {S : Ty → Prop} (hS : OffersFirst cx.definitions S)

include hS

theorem readShape_diverges {v : ByName.Value} (hv : v.isDatum = true)
    (hform : ∀ tys, v.componentTys (.union tys) = none) :
    ∀ (k : Nat) {ty : Ty}, S ty → ByName.readShape cx k v ty = .error .outOfFuel
  | 0, _, _ => rfl
  | k + 1, ty, hty => by
    obtain ⟨alternative, rest, hresolve, halternative⟩ := hS ty hty
    have hfirst := readShape_diverges hv hform k halternative
    have hunion : ByName.readUnion (ByName.readShape cx k) (ByName.atType v ty) v
        (alternative :: rest) = .error .outOfFuel := by
      rw [ByName.readUnion, hfirst]
      rfl
    rw [ByName.readShape, ByName.shapeWith_datum _ _ cx hv, hresolve, ← hunion]
    change ByName.readDatum _ _ v ty (.union (alternative :: rest)) = _
    unfold ByName.readDatum
    rw [hform]

/-- Read-back of a list, record, box or tuple never ends at a union whose first alternatives lead on
to unions forever. -/
theorem normalizeAt_diverges {t : Term} (ht : t.isComposite = true) {ty : Ty} (hty : S ty)
    (fuel : Nat) : normalizeAt cx fuel t ty = .error .outOfFuel := by
  by_contra hr
  obtain ⟨k, hk⟩ := ByName.exists_normalizeAt_byName rfl hr
  obtain ⟨alternative, rest, hresolve, -⟩ := hS ty hty
  have hnone : ty.singleton? = none := by
    cases ty with
    | singleton => cases hresolve
    | _ => rfl
  have hdiverges : ByName.normalizeAt cx k t ty = .error .outOfFuel := by
    cases k with
    | zero => rfl
    | succ k =>
      unfold ByName.normalizeAt ByName.readBack ByName.readBackWith
      rw [hnone]
      cases t with
      | list | compound | ref | tuple =>
        rw [ByName.evaluate, ByName.evaluateWith]
        change (ByName.readShape cx (k + 1) _ ty >>= _) = _
        rw [readShape_diverges hS rfl (fun _ => rfl) (k + 1) hty]
        rfl
      | _ => cases ht
  exact hr (hk.symm.trans hdiverges)

end

/-- So it is at an alias whose first alternative is itself. -/
theorem normalizeAt_diverges_at_alias {cx : Context} {name : DefName} {rest : List Ty}
    (hname : cx.definitions.alias? name = some (.union (.alias name :: rest))) {t : Term}
    (ht : t.isComposite = true) (fuel : Nat) :
    normalizeAt cx fuel t (.alias name) = .error .outOfFuel := by
  have hpos : cx.definitions.size ≠ 0 := by
    intro hzero
    have hmem := Table.mem_of_alias? hname
    rw [List.length_eq_zero_iff.1 hzero] at hmem
    cases hmem
  obtain ⟨n, hn⟩ := Nat.exists_eq_succ_of_ne_zero hpos
  have hoffers : OffersFirst cx.definitions (· = .alias name) := by
    rintro ty rfl
    refine ⟨.alias name, rest, ?_, rfl⟩
    rw [resolve, hn, resolveWithin, hname]
    rfl
  exact normalizeAt_diverges hoffers ht rfl fuel

end Eval

end Stagecraft
