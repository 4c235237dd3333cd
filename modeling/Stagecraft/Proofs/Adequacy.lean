import Stagecraft.Proofs.SharingAgreement

/-!
# Evaluation and read-back with and without sharing

`evaluate_byNeed` and `evaluate_byName` close the induction on the fuel, each in its mode, and
`normalizeAt_eq_iff` says for whole programs that the answers with sharing are the answers by name.
-/

namespace Stagecraft.Eval.ByName

open Staged (Ty Pattern Term)

section

variable {m : Mode} {cx : Context} {q : ℚ}

/-- Related lists have related elements at each position. -/
theorem getElem?_rel {α β : Type} {R : α → β → Prop} {xs : List α} {ys : List β}
    (h : List.Forall₂ R xs ys) (i : Nat) : Option.Rel R xs[i]? ys[i]? := by
  induction h generalizing i with
  | nil => exact .none
  | cons hxy _ ih =>
    cases i with
    | zero => exact .some hxy
    | succ i => exact ih i

/-! ## Evaluation -/

section

variable {eval : Eval.Evaluation} {forceCell : CellId → EvalM Eval.Value}
  (heval : Follows m cx eval) (hlook : Looks m cx forceCell)

include heval hlook

theorem enterBody_tracks {Φ : Chart} {ρ : List Thunk} {depth : Nat} {env : Env} {θ : Thunk}
    {c : CellId} (henv : EnvStands Φ q ρ depth env) (hc : Stands Φ q θ c) (p : Pattern) (b : Term) :
    Tracks m cx Φ q (Eval.enterBody eval forceCell env p c b)
      (fun k => enterBody (evaluate cx k) ρ depth p θ b) fun Φ' u v => Depicts Φ' q v u :=
  (extend_tracks hlook henv hc p).bind fun _ _ _ _ henv' => heval b henv'

theorem call_tracks {Φ : Chart} {ρ : List Thunk} {depth : Nat} {env : Env}
    (henv : EnvStands Φ q ρ depth env) (name : DefName) (a : Term) :
    Tracks m cx Φ q (Eval.call cx eval forceCell env name a)
      (fun k => call cx (evaluate cx k) ρ depth name a) fun Φ' u v => Depicts Φ' q v u := by
  have hstuck : Tracks m cx Φ q
      (do return Eval.Value.call name (← eval env a) a.ty)
      (fun k => do return Value.call name (← evaluate cx k ρ depth a) a.ty)
      fun Φ' u v => Depicts Φ' q v u :=
    (heval a henv).bind fun u v Φ₁ _ hu => .ret (.call hu)
  unfold Eval.call call
  match cx.definitions.find? name with
  | none => exact hstuck
  | some (.resource _) => exact .fail
  | some (.alias _) => exact .fail
  | some (.function f) =>
    dsimp only
    rw [henv.depth]
    split
    · cases Keyed.find? name cx.natives with
      | none => exact .fail
      | some n =>
        refine (heval a henv).bind fun u v Φ₁ _ hu => ?_
        refine (runNative_tracks hlook hu n).bind fun answer answer' Φ₂ hle₂ hanswer => ?_
        cases hanswer with
        | none => exact .ret (.call (hu.mono hle₂ le_rfl))
        | some hresult => exact .ret hresult
    · split
      · exact hstuck
      · refine Tracks.afterMakes (Makes.suspend henv a) fun c Φ₁ _ hc => ?_
        have hinner : EnvStands Φ₁ q [] (depth + 1) env.enter :=
          ⟨congrArg (· + 1) henv.depth, .nil⟩
        exact enterBody_tracks heval hlook hinner hc f.binder f.body

theorem evaluateWith_tracks {Φ : Chart} {ρ : List Thunk} {depth : Nat} {env : Env}
    (henv : EnvStands Φ q ρ depth env) (t : Term) :
    Tracks m cx Φ q (Eval.evaluateWith cx eval forceCell env t)
      (fun k => evaluateWith cx (evaluate cx k) ρ depth t) fun Φ' u v => Depicts Φ' q v u := by
  cases t with
  | literal _ l => exact .ret .literal
  | array _ kind es => exact .made (Makes.suspendAll es henv) fun cs Φ' _ hcs => .array hcs
  | list _ es => exact .made (Makes.suspendAll es henv) fun cs Φ' _ hcs => .list hcs
  | compound _ fields =>
    exact .made (Makes.suspendFields fields henv) fun cs Φ' _ hcs => .compound hcs
  | ref _ e => exact .made (Makes.suspend henv e) fun c Φ' _ hc => .ref hc
  | tuple _ es => exact .made (Makes.suspendAll es henv) fun cs Φ' _ hcs => .tuple hcs
  | lambda _ p b => exact .ret (.closure henv)
  | apply _ f a =>
    refine (heval f henv).bind fun u v Φ₁ hle₁ hu => ?_
    refine Tracks.afterMakes (Makes.suspend (henv.mono hle₁ le_rfl) a) fun c Φ₂ hle₂ hc => ?_
    have hu₂ := hu.mono hle₂ (le_refl q)
    cases hu₂ with
    | closure hcaptured => exact enterBody_tracks heval hlook hcaptured hc _ _
    | literal | array | list | compound | ref | tuple | quote | var | apply | cond | call | test
    | command | splice | project => exact .ret (.apply (hu.mono hle₂ le_rfl) hc)
  | cond _ c a b =>
    refine (heval c henv).bind fun u v Φ₁ hle₁ hu => ?_
    have henv₁ := henv.mono hle₁ (le_refl q)
    rw [hu.bool?]
    match v.seen.bool? with
    | some true => exact heval a henv₁
    | some false => exact heval b henv₁
    | none =>
      refine Tracks.afterMakes (Makes.suspend henv₁ a) fun c₁ Φ₂ hle₂ hc₁ => ?_
      refine Tracks.made (Makes.suspend (henv₁.mono hle₂ le_rfl) b) fun c₂ Φ₃ hle₃ hc₂ => ?_
      exact .cond (hu.mono (Chart.le_trans hle₂ hle₃) le_rfl) (hc₁.mono hle₃ le_rfl) hc₂
  | letIn _ p i b =>
    refine Tracks.afterMakes (Makes.suspend henv i) fun c Φ₁ hle₁ hc => ?_
    exact enterBody_tracks heval hlook (henv.mono hle₁ le_rfl) hc p b
  | var _ x =>
    have hget := getElem?_rel henv.cells x.level
    simp only [Eval.evaluateWith, evaluateWith]
    change Option.Rel (Stands Φ q) ρ[x.level]? (env.get? x.level) at hget
    revert hget
    cases ρ[x.level]? <;> cases env.get? x.level <;> intro hget <;> cases hget
    · exact .ret .var
    · next hc => exact hlook hc
  | call _ name a => exact call_tracks heval hlook henv name a
  | test _ e p =>
    refine (heval e henv).bind fun u v Φ₁ _ hu => ?_
    refine (decideMatch_tracks hlook p hu).bind fun verdict _ Φ₂ hle₂ heq => ?_
    subst heq
    cases verdict with
    | none => exact .ret (.test (hu.mono hle₂ le_rfl))
    | some b => exact .ret .literal
  | command _ line => exact .ret .command
  | quote _ e => exact .made (Makes.suspend henv e) fun c Φ' _ hc => .quote hc
  | splice _ e =>
    refine (heval e henv).bind fun u v Φ₁ _ hu => ?_
    have hu' := hu
    cases hu with
    | quote hc => exact hlook hc
    | literal | array | list | compound | ref | tuple | closure | var | apply | cond | call | test
    | command | splice | project => exact .ret (.splice hu')
  | hole _ => exact .fail

end

/-- One level more of an evaluation that ends by name if it ends on the store. -/
theorem Follows.succ {eval : Eval.Evaluation} {forceCell : CellId → EvalM Eval.Value}
    (heval : Follows .byNeed cx eval) (hlook : Looks .byNeed cx forceCell) :
    Follows .byNeed cx (Eval.evaluateWith cx eval forceCell) := by
  intro Φ q ρ depth env t henv s hs
  rcases evaluateWith_tracks heval hlook henv t s hs with hexc | ⟨o, Φ', hset, hrest⟩
  · exact .inl hexc
  · exact .inr ⟨o, Φ', ComesTo.succ hset, hrest⟩

/-- Evaluation on the store that ends, ends by name. -/
theorem evaluate_byNeed : ∀ n, Follows .byNeed cx (Eval.evaluate cx n)
  | 0 => fun _ _ _ _ _ _ _ _ _ => .inl rfl
  | n + 1 => (evaluate_byNeed n).succ (evaluate_byNeed n).force

/-- Evaluation by name that ends, ends on the store with the same fuel. -/
theorem evaluate_byName : ∀ n, Follows (.byName n) cx (Eval.evaluate cx n)
  | 0 => fun _ _ _ _ _ _ _ _ _ => .inl rfl
  | n + 1 => fun _ _ _ _ _ t henv =>
    evaluateWith_tracks (evaluate_byName n) (evaluate_byName n).force henv t

/-! ## Read-back -/

/-- A read-back from the store that goes as read-back by name does. -/
def Reads (m : Mode) (cx : Context) (shape : Eval.Value → Ty → EvalM Term) : Prop :=
  ∀ ⦃Φ q v u⦄ (ty : Ty), Depicts Φ q v u →
    Tracks m cx Φ q (shape u ty) (fun k => readShape cx k v ty) fun _ a b => a = b

section

variable {eval : Eval.Evaluation} {forceCell : CellId → EvalM Eval.Value}
  {shape : Eval.Value → Ty → EvalM Term} (heval : Follows m cx eval)
  (hlook : Looks m cx forceCell) (hshape : Reads m cx shape)

include hshape

theorem readBackWith_tracks {Φ : Chart} {v : Value} {u : Eval.Value} (h : Depicts Φ q v u)
    (ty : Ty) :
    Tracks m cx Φ q (Eval.readBackWith shape u ty) (fun k => readBackWith (readShape cx k) v ty)
      fun _ a b => a = b := by
  unfold Eval.readBackWith readBackWith
  cases ty.singleton? with
  | some l => exact .ret rfl
  | none => exact (hshape ty h).bind fun t _ Φ₁ _ heq => .ret (heq ▸ rfl)

theorem readUnion_tracks (onNone : Error) : ∀ (tys : List Ty) {Φ : Chart} {v : Value}
    {u : Eval.Value}, Depicts Φ q v u → Tracks m cx Φ q (Eval.readUnion shape onNone u tys)
      (fun k => readUnion (readShape cx k) onNone v tys) fun _ a b => a = b
  | [], _, _, _, _ => .fail
  | ty :: tys, _, _, _, h =>
    (hshape ty h).orElse fun _ hle => readUnion_tracks onNone tys (h.mono hle le_rfl)

include hlook

theorem readCell_tracks {Φ : Chart} {θ : Thunk} {c : CellId} (hc : Stands Φ q θ c) (ty : Ty) :
    Tracks m cx Φ q (Eval.readCell forceCell shape c ty)
      (fun k => readThunk (evaluate cx k) (readShape cx k) θ ty) fun _ a b => a = b :=
  (hlook hc).bind fun _ _ _ _ hu => readBackWith_tracks hshape hu ty

theorem readCells_tracks (ty : Ty) {Φ : Chart} {θs : List Thunk} {cs : List CellId}
    (h : Parts Φ q θs cs) :
    Tracks m cx Φ q (Eval.readCells forceCell shape ty cs)
      (fun k => readThunks (evaluate cx k) (readShape cx k) ty θs) fun _ a b => a = b := by
  induction θs generalizing cs Φ with
  | nil =>
    cases h
    exact .ret rfl
  | cons θ θs ih =>
    cases h with
    | cons hc hcs =>
      refine (readCell_tracks hlook hshape hc ty).bind fun t _ Φ₁ hle₁ heq => ?_
      subst heq
      refine (ih (Parts.mono hle₁ le_rfl hcs)).bind fun ts _ Φ₂ _ heq => ?_
      subst heq
      exact .ret rfl

theorem readTuple_tracks {Φ : Chart} {θs : List Thunk} {cs : List CellId} {tys : List Ty}
    (h : Parts Φ q θs cs) :
    Tracks m cx Φ q (Eval.readTuple forceCell shape cs tys)
      (fun k => readTuple (evaluate cx k) (readShape cx k) θs tys) fun _ a b => a = b := by
  induction θs generalizing cs tys Φ with
  | nil =>
    cases h
    exact .ret rfl
  | cons θ θs ih =>
    cases h with
    | cons hc hcs =>
      cases tys with
      | nil => exact .ret rfl
      | cons ty tys =>
        refine (readCell_tracks hlook hshape hc ty).bind fun t _ Φ₁ hle₁ heq => ?_
        subst heq
        refine (ih (Parts.mono hle₁ le_rfl hcs)).bind fun ts _ Φ₂ _ heq => ?_
        subst heq
        exact .ret rfl

theorem readFields_tracks (onMissing : Error) (tys : List (String × Ty)) {Φ : Chart}
    {fs : List (String × Thunk)} {gs : List (String × CellId)} (h : FieldParts Φ q fs gs) :
    Tracks m cx Φ q (Eval.readFields forceCell shape onMissing tys gs)
      (fun k => readFields (evaluate cx k) (readShape cx k) onMissing tys fs) fun _ a b =>
        a = b := by
  induction fs generalizing gs Φ with
  | nil =>
    cases h
    exact .ret rfl
  | cons f fs ih =>
    cases h with
    | @cons _ g _ gs hf hrest =>
      obtain ⟨key, θ⟩ := f
      obtain ⟨key', c⟩ := g
      obtain ⟨hkey, hc⟩ := hf
      dsimp only at hkey hc
      subst hkey
      unfold Eval.readFields readFields
      cases Keyed.find? key tys with
      | none => exact .fail
      | some ty =>
        refine (readCell_tracks hlook hshape hc ty).bind fun t _ Φ₁ hle₁ heq => ?_
        subst heq
        refine (ih (FieldParts.mono hle₁ le_rfl hrest)).bind fun ts _ Φ₂ _ heq => ?_
        subst heq
        exact .ret rfl

include heval

theorem shapeWith_tracks {Φ : Chart} {v : Value} {u : Eval.Value} (h : Depicts Φ q v u) (ty : Ty) :
    Tracks m cx Φ q (Eval.shapeWith cx eval forceCell shape u ty)
      (fun k => shapeWith cx (evaluate cx k) (readShape cx k) v ty) fun _ a b => a = b := by
  unfold Eval.shapeWith shapeWith
  refine Tracks.ofExcept.bind fun view _ Φ₁ hle₁ heq => ?_
  subst heq
  have h₁ := h.mono hle₁ (le_refl q)
  have hatType := h₁.atType ty
  have hunion : ∀ tys, Tracks m cx Φ₁ q (Eval.readUnion shape (.atType u ty) u tys)
      (fun k => readUnion (readShape cx k) (atType v ty) v tys) fun _ a b => a = b := by
    intro tys
    rw [hatType]
    exact readUnion_tracks hshape _ tys h₁
  have hfail : Tracks m cx Φ₁ q (EvalM.fail (Error.atType u ty))
      (fun _ => Result.fail (atType v ty)) fun _ (a b : Term) => a = b := by
    rw [hatType]
    exact .fail
  cases h₁ with
  | literal => exact .ret rfl
  | array hparts =>
    exact (readCells_tracks hlook hshape _ hparts).bind fun ts _ Φ₂ _ heq => .ret (heq ▸ rfl)
  | list hparts =>
    cases view with
    | list element =>
      exact (readCells_tracks hlook hshape _ hparts).bind fun ts _ Φ₂ _ heq => .ret (heq ▸ rfl)
    | union tys => exact hunion tys
    | _ => exact hfail
  | compound hfields =>
    cases view with
    | compound tys =>
      refine Tracks.bind (Q := fun _ a b => a = b) ?_ fun ts _ Φ₂ _ heq => .ret (heq ▸ rfl)
      rw [hatType]
      exact readFields_tracks hlook hshape _ tys hfields
    | union tys => exact hunion tys
    | _ => exact hfail
  | ref hc =>
    cases view with
    | ref element =>
      exact (readCell_tracks hlook hshape hc _).bind fun t _ Φ₂ _ heq => .ret (heq ▸ rfl)
    | union tys => exact hunion tys
    | _ => exact hfail
  | tuple hparts =>
    cases view with
    | tuple tys =>
      dsimp only
      rw [hparts.length_eq]
      split
      · exact (readTuple_tracks hlook hshape hparts).bind fun ts _ Φ₂ _ heq => .ret (heq ▸ rfl)
      · exact hfail
    | union tys => exact hunion tys
    | _ => exact hfail
  | closure henv =>
    cases view with
    | function param result =>
      refine Tracks.afterMakes (Makes.bindNeutral _ henv) fun env' Φ₂ hle₂ henv' => ?_
      refine (heval _ henv').bind fun u v Φ₃ hle₃ hu => ?_
      exact (readBackWith_tracks hshape hu result).bind fun t _ Φ₄ _ heq => .ret (heq ▸ rfl)
    | union tys => exact hunion tys
    | _ => exact hfail
  | quote hc =>
    cases view with
    | code element =>
      exact (readCell_tracks hlook hshape hc _).bind fun t _ Φ₂ _ heq => .ret (heq ▸ rfl)
    | union tys => exact hunion tys
    | _ => exact hfail
  | var => exact .ret rfl
  | apply hf hc =>
    refine (readBackWith_tracks hshape hf _).bind fun f _ Φ₂ hle₂ heq => ?_
    subst heq
    refine (readCell_tracks hlook hshape (hc.mono hle₂ le_rfl) _).bind fun a _ Φ₃ _ heq => ?_
    exact .ret (heq ▸ rfl)
  | cond hv hc hc' =>
    refine (readBackWith_tracks hshape hv _).bind fun t _ Φ₂ hle₂ heq => ?_
    subst heq
    refine (readCell_tracks hlook hshape (hc.mono hle₂ le_rfl) _).bind fun a _ Φ₃ hle₃ heq => ?_
    subst heq
    have hc₃ := hc'.mono (Chart.le_trans hle₂ hle₃) (le_refl q)
    exact (readCell_tracks hlook hshape hc₃ _).bind fun b _ Φ₄ _ heq => .ret (heq ▸ rfl)
  | call hv | test hv | splice hv | project hv =>
    exact (readBackWith_tracks hshape hv _).bind fun t _ Φ₂ _ heq => .ret (heq ▸ rfl)
  | command => exact .ret rfl

end

/-- One level more of a read-back that ends by name if it ends on the store. -/
theorem Reads.succ {eval : Eval.Evaluation} {forceCell : CellId → EvalM Eval.Value}
    {shape : Eval.Value → Ty → EvalM Term} (hshape : Reads .byNeed cx shape)
    (heval : Follows .byNeed cx eval) (hlook : Looks .byNeed cx forceCell) :
    Reads .byNeed cx (Eval.shapeWith cx eval forceCell shape) := by
  intro Φ q v u ty h s hs
  rcases shapeWith_tracks heval hlook hshape h ty s hs with hexc | ⟨o, Φ', hset, hrest⟩
  · exact .inl hexc
  · exact .inr ⟨o, Φ', ComesTo.succ hset, hrest⟩

theorem readShape_byNeed : ∀ n, Reads .byNeed cx (Eval.readShape cx n)
  | 0 => fun _ _ _ _ _ _ _ _ => .inl rfl
  | n + 1 => (readShape_byNeed n).succ (evaluate_byNeed n) (evaluate_byNeed n).force

theorem readShape_byName : ∀ n, Reads (.byName n) cx (Eval.readShape cx n)
  | 0 => fun _ _ _ _ _ _ _ _ => .inl rfl
  | n + 1 => fun _ _ _ _ ty h =>
    shapeWith_tracks (evaluate_byName n) (evaluate_byName n).force (readShape_byName n) h ty

/-! ## Normalization -/

/-- Evaluation and read-back of a whole term, without bindings. -/
theorem normalizeAt_tracks {n : Nat} (heval : Follows m cx (Eval.evaluate cx n))
    (hshape : Reads m cx (Eval.readShape cx n)) (t : Term) (ty : Ty) :
    Tracks m cx (fun _ => none) 0
      (do
        let v ← Eval.evaluate cx n Env.empty t
        Eval.readBack cx n v ty)
      (fun k => normalizeAt cx k t ty) fun _ a b => a = b := by
  have henv : EnvStands (fun _ => none) 0 [] 0 Env.empty := ⟨rfl, .nil⟩
  exact (heval t henv).bind fun u v Φ₁ _ hu => readBackWith_tracks hshape hu ty

end

section

variable {cx : Context} {t : Term} {ty : Ty}

theorem normalizeAt_eq_of_byName {n : Nat} {r : Result Term} (h : normalizeAt cx n t ty = r)
    (hr : r ≠ .error .outOfFuel) : Eval.normalizeAt cx n t ty = r := by
  subst h
  have heval : Follows (.byName n) cx (Eval.evaluate cx n) := evaluate_byName n
  have htracks := normalizeAt_tracks heval (readShape_byName n) t ty
  exact htracks.eq_of_byName charted_empty hr

theorem exists_normalizeAt_byName {n : Nat} {r : Result Term}
    (h : Eval.normalizeAt cx n t ty = r) (hr : r ≠ .error .outOfFuel) :
    ∃ k, normalizeAt cx k t ty = r := by
  subst h
  have heval : Follows .byNeed cx (Eval.evaluate cx n) := evaluate_byNeed n
  have htracks := normalizeAt_tracks heval (readShape_byNeed n) t ty
  obtain ⟨N, hN⟩ := htracks.comesTo_of_byNeed charted_empty hr
  exact ⟨N, hN N (Nat.le_refl N)⟩

/-- The answers of normalization with sharing are those of normalization by name. -/
theorem normalizeAt_eq_iff {r : Result Term} (hr : r ≠ .error .outOfFuel) :
    (∃ n, Eval.normalizeAt cx n t ty = r) ↔ ∃ n, normalizeAt cx n t ty = r := by
  constructor
  · rintro ⟨n, hn⟩
    exact exists_normalizeAt_byName hn hr
  · rintro ⟨n, hn⟩
    exact ⟨n, normalizeAt_eq_of_byName hn hr⟩

/-- The normal form of a term does not depend on the fuel. -/
theorem normalizeAt_unique {m n : Nat} {a b : Term} (ha : Eval.normalizeAt cx m t ty = .ok a)
    (hb : Eval.normalizeAt cx n t ty = .ok b) : a = b := by
  obtain ⟨j, hj⟩ := exists_normalizeAt_byName ha nofun
  obtain ⟨k, hk⟩ := exists_normalizeAt_byName hb nofun
  have heq := (normalizeAt_comesTo hj nofun).unique (normalizeAt_comesTo hk nofun)
  cases heq
  rfl

end

end Stagecraft.Eval.ByName
