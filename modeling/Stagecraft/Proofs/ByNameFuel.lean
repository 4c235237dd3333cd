import Stagecraft.Proofs.ByName

/-!
# More fuel never changes an answer

`Below x y` is the flat order of answers: `x` ran out of fuel, or it is the answer `y`. Everything
that evaluation by name does is monotone in the evaluation it is given (`evaluateWith_below`,
`shapeWith_below`), so an answer once found stays (`evaluate_comesTo`, `normalizeAt_comesTo`).
-/

namespace Stagecraft.Eval.ByName

open Staged (Ty Pattern Term Table)

/-- The first answer is the second one, if it is an answer. -/
def Below {α : Type} (x y : Result α) : Prop := x = .error .outOfFuel ∨ x = y

namespace Below

variable {α β : Type} {x y : Result α}

theorem rfl : Below x x := .inr (Eq.refl x)

theorem outOfFuel : Below Result.outOfFuel y := .inl (Eq.refl _)

theorem bind {f g : α → Result β} (h : Below x y) (hf : ∀ a, Below (f a) (g a)) :
    Below (x >>= f) (y >>= g) := by
  rcases h with rfl | rfl
  · exact .inl (Eq.refl _)
  · cases x with
    | error e => exact .rfl
    | ok a => exact hf a

theorem orElse {x' y' : Result α} (h : Below x y) (h' : Below x' y') :
    Below (Result.orElse x x') (Result.orElse y y') := by
  rcases h with rfl | rfl
  · exact .inl (Eq.refl _)
  · match x with
    | .ok a => exact .rfl
    | .error .outOfFuel => exact .rfl
    | .error (.failed e) => exact h'

theorem stays (h : Below x y) (hx : x ≠ .error .outOfFuel) : y = x := by
  rcases h with h | h
  · exact absurd h hx
  · exact h.symm

end Below

/-! ## What answers come to -/

/-- Answers, one for each amount of fuel, that are one answer from some amount on. -/
def ComesTo {α : Type} (y : Nat → Result α) (o : Result α) : Prop := ∃ n, ∀ k, n ≤ k → y k = o

namespace ComesTo

variable {α β : Type} {y y' : Nat → Result α} {o o' : Result α}

theorem const (o : Result α) : ComesTo (fun _ => o) o := ⟨0, fun _ _ => rfl⟩

theorem and (h : ComesTo y o) {y' : Nat → Result β} {o' : Result β} (h' : ComesTo y' o') :
    ∃ n, ∀ k, n ≤ k → y k = o ∧ y' k = o' := by
  obtain ⟨n, hn⟩ := h
  obtain ⟨n', hn'⟩ := h'
  refine ⟨max n n', fun k hk => ⟨hn k ?_, hn' k ?_⟩⟩
  · exact Nat.le_trans (Nat.le_max_left n n') hk
  · exact Nat.le_trans (Nat.le_max_right n n') hk

theorem unique (h : ComesTo y o) (h' : ComesTo y o') : o = o' := by
  obtain ⟨n, hn⟩ := h.and h'
  obtain ⟨hy, hy'⟩ := hn n (Nat.le_refl n)
  rw [← hy, hy']

theorem bind {g : Nat → α → Result β} {a : α} {r : Result β} (h : ComesTo y (.ok a))
    (hg : ComesTo (fun k => g k a) r) : ComesTo (fun k => y k >>= g k) r := by
  obtain ⟨n, hn⟩ := h.and hg
  refine ⟨n, fun k hk => ?_⟩
  obtain ⟨hy, hgk⟩ := hn k hk
  simp only [hy]
  exact hgk

theorem bind_error {g : Nat → α → Result β} {e : Stop Error} (h : ComesTo y (.error e)) :
    ComesTo (fun k => y k >>= g k) (.error e) := by
  obtain ⟨n, hn⟩ := h
  refine ⟨n, fun k hk => ?_⟩
  simp only [hn k hk]
  rfl

theorem orElse_ok {a : α} (h : ComesTo y (.ok a)) :
    ComesTo (fun k => Result.orElse (y k) (y' k)) (.ok a) := by
  obtain ⟨n, hn⟩ := h
  refine ⟨n, fun k hk => ?_⟩
  simp only [hn k hk]
  rfl

theorem orElse_failed {e : Error} (h : ComesTo y (.error (.failed e))) (h' : ComesTo y' o) :
    ComesTo (fun k => Result.orElse (y k) (y' k)) o := by
  obtain ⟨n, hn⟩ := h.and h'
  refine ⟨n, fun k hk => ?_⟩
  obtain ⟨hy, hy'⟩ := hn k hk
  simp only [hy, hy']
  rfl

/-- An answer found at one level of the recursion is found one level further out. -/
theorem succ (h : ComesTo (fun k => y (k + 1)) o) : ComesTo y o := by
  obtain ⟨n, hn⟩ := h
  refine ⟨n + 1, fun k hk => ?_⟩
  obtain ⟨k, rfl⟩ := Nat.exists_eq_add_of_le' (Nat.le_trans (Nat.le_add_left 1 n) hk)
  exact hn k (Nat.le_of_succ_le_succ hk)

end ComesTo

section

variable {look look' : Thunk → Result Value} (h : ∀ θ, Below (look θ) (look' θ))

include h

theorem decideAll_below {ps : List Pattern}
    (hps : ∀ p ∈ ps, ∀ v, Below (decideMatch look p v) (decideMatch look' p v)) (decided : Bool)
    (θs : List Thunk) : Below (decideAll look decided ps θs) (decideAll look' decided ps θs) := by
  induction ps generalizing decided θs with
  | nil => exact .rfl
  | cons p ps ih =>
    rw [List.forall_mem_cons] at hps
    cases θs with
    | nil => exact .rfl
    | cons θ θs =>
      rw [decideAll, decideAll]
      refine Below.rfl.bind fun certain => ?_
      split
      · exact ih hps.2 decided θs
      · refine (h θ).bind fun v => (hps.1 v).bind fun verdict => ?_
        split
        · exact .rfl
        · exact ih hps.2 decided θs
        · exact ih hps.2 false θs

theorem decideMatch_below (p : Pattern) (v : Value) :
    Below (decideMatch look p v) (decideMatch look' p v) := by
  induction p using Pattern.induction generalizing v with
  | hole | var | wildcard | int | range => exact .rfl
  | tuple info ps ih | list info ps ih =>
    unfold decideMatch
    split
    · exact .rfl
    · split
      · split
        · exact decideAll_below h ih true _
        · exact .rfl
      · exact .rfl
  | compound info fields ih =>
    unfold decideMatch
    split
    · exact .rfl
    · split
      · split
        · rw [decideFields_eq, decideFields_eq]
          exact decideAll_below h (List.forall_mem_map.2 ih) true _
        · exact .rfl
      · exact .rfl

omit h in
theorem destructureAll_below {ps : List Pattern}
    (hps : ∀ p ∈ ps, ∀ θ, Below (destructure look p θ) (destructure look' p θ))
    (θs : List Thunk) : Below (destructureAll look ps θs) (destructureAll look' ps θs) := by
  induction ps generalizing θs with
  | nil => exact .rfl
  | cons p ps ih =>
    rw [List.forall_mem_cons] at hps
    cases θs with
    | nil => exact .rfl
    | cons θ θs =>
      rw [destructureAll, destructureAll]
      exact (hps.1 θ).bind fun _ => (ih hps.2 θs).bind fun _ => .rfl

omit h in
theorem destructureFields_below {fields : List (String × Pattern)}
    (hfields : ∀ f ∈ fields, ∀ θ, Below (destructure look f.2 θ) (destructure look' f.2 θ))
    (record : Value) (entries : List (String × Thunk)) :
    Below (destructureFields look record entries fields)
      (destructureFields look' record entries fields) := by
  induction fields with
  | nil => exact .rfl
  | cons f rest ih =>
    rw [List.forall_mem_cons] at hfields
    rw [destructureFields, destructureFields]
    split
    · exact .rfl
    · exact (hfields.1 _).bind fun _ => (ih hfields.2).bind fun _ => .rfl

omit h in
theorem elementsApart_below {ps : List Pattern}
    (hps : ∀ p ∈ ps, ∀ θ, Below (destructure look p θ) (destructure look' p θ)) (q : Pattern)
    (v : Value) : Below (elementsApart look q ps v) (elementsApart look' q ps v) := by
  unfold elementsApart
  split
  · split
    · exact destructureAll_below hps _
    · exact .rfl
  · exact .rfl

theorem opened_below {apart apart' : Value → Result (List Thunk)}
    (hapart : ∀ v, Below (apart v) (apart' v)) (p : Pattern) (θ : Thunk) :
    Below (opened look p apart θ) (opened look' p apart' θ) := by
  unfold opened
  split
  · exact .rfl
  · refine (h θ).bind fun v => ?_
    split
    · exact .rfl
    · exact hapart v

theorem destructure_below (p : Pattern) (θ : Thunk) :
    Below (destructure look p θ) (destructure look' p θ) := by
  induction p using Pattern.induction generalizing θ with
  | hole | var | wildcard | int | range => exact .rfl
  | tuple info ps ih =>
    rw [destructure_tuple, destructure_tuple]
    exact opened_below h (elementsApart_below ih _) _ θ
  | list info ps ih =>
    rw [destructure_list, destructure_list]
    exact opened_below h (elementsApart_below ih _) _ θ
  | compound info fields ih =>
    rw [destructure_compound, destructure_compound]
    refine opened_below h (fun v => ?_) _ θ
    unfold fieldsApart
    split
    · exact destructureFields_below ih _ _
    · exact .rfl

theorem runNative_below (n : Native) (v : Value) :
    Below (runNative look n v) (runNative look' n v) := by
  unfold runNative
  split
  · exact .rfl
  · exact (h _).bind fun _ => (h _).bind fun _ => .rfl
  · exact .rfl

end

section

variable {cx : Context} {eval eval' : Evaluation}
  (h : ∀ ρ depth t, Below (eval ρ depth t) (eval' ρ depth t))

include h

theorem force_below : ∀ θ : Thunk, Below (force eval θ) (force eval' θ)
  | .delayed ρ depth t => h ρ depth t
  | .known _ => .rfl

theorem enterBody_below (ρ : List Thunk) (depth : Nat) (p : Pattern) (θ : Thunk) (b : Term) :
    Below (enterBody eval ρ depth p θ b) (enterBody eval' ρ depth p θ b) :=
  (destructure_below (force_below h) p θ).bind fun _ => h _ depth b

theorem call_below (ρ : List Thunk) (depth : Nat) (name : DefName) (a : Term) :
    Below (call cx eval ρ depth name a) (call cx eval' ρ depth name a) := by
  unfold call
  split
  · split
    · split
      · exact .rfl
      · refine (h ρ depth a).bind fun v => (runNative_below (force_below h) _ v).bind fun r => ?_
        exact .rfl
    · split
      · exact (h ρ depth a).bind fun _ => .rfl
      · exact enterBody_below h _ _ _ _ _
  · exact .rfl
  · exact .rfl
  · exact (h ρ depth a).bind fun _ => .rfl

theorem evaluateWith_below (ρ : List Thunk) (depth : Nat) (t : Term) :
    Below (evaluateWith cx eval ρ depth t) (evaluateWith cx eval' ρ depth t) := by
  cases t with
  | literal | array | list | compound | ref | tuple | lambda | command | quote | hole => exact .rfl
  | apply _ f a =>
    refine (h ρ depth f).bind fun v => ?_
    split
    · exact enterBody_below h _ _ _ _ _
    · exact .rfl
  | cond _ c a b =>
    refine (h ρ depth c).bind fun v => ?_
    split
    · exact h ρ depth a
    · exact h ρ depth b
    · exact .rfl
  | letIn _ p i b => exact enterBody_below h ρ depth p _ b
  | var _ v =>
    rw [evaluateWith, evaluateWith]
    split
    · exact force_below h _
    · exact .rfl
  | call _ name a => exact call_below h ρ depth name a
  | test _ e p =>
    exact (h ρ depth e).bind fun v => (decideMatch_below (force_below h) p v).bind fun _ => .rfl
  | splice _ e =>
    refine (h ρ depth e).bind fun v => ?_
    split
    · exact force_below h _
    · exact .rfl

variable {shape shape' : Value → Ty → Result Term}
  (hshape : ∀ v ty, Below (shape v ty) (shape' v ty))

include hshape

omit h in
theorem readBackWith_below (v : Value) (ty : Ty) :
    Below (readBackWith shape v ty) (readBackWith shape' v ty) := by
  unfold readBackWith
  split
  · exact .rfl
  · exact (hshape v ty).bind fun _ => .rfl

theorem readThunk_below (θ : Thunk) (ty : Ty) :
    Below (readThunk eval shape θ ty) (readThunk eval' shape' θ ty) :=
  (force_below h θ).bind fun v => readBackWith_below hshape v ty

theorem readThunks_below (ty : Ty) : ∀ θs : List Thunk,
    Below (readThunks eval shape ty θs) (readThunks eval' shape' ty θs)
  | [] => .rfl
  | θ :: θs =>
    (readThunk_below h hshape θ ty).bind fun _ => (readThunks_below ty θs).bind fun _ => .rfl

theorem readTuple_below : ∀ (θs : List Thunk) (tys : List Ty),
    Below (readTuple eval shape θs tys) (readTuple eval' shape' θs tys)
  | [], _ => .rfl
  | _ :: _, [] => .rfl
  | θ :: θs, ty :: tys =>
    (readThunk_below h hshape θ ty).bind fun _ => (readTuple_below θs tys).bind fun _ => .rfl

theorem readFields_below (onMissing : Error) (tys : List (String × Ty)) :
    ∀ fields : List (String × Thunk),
      Below (readFields eval shape onMissing tys fields)
        (readFields eval' shape' onMissing tys fields)
  | [] => .rfl
  | (key, θ) :: rest => by
    rw [readFields, readFields]
    split
    · exact .rfl
    · exact (readThunk_below h hshape θ _).bind fun _ =>
        (readFields_below onMissing tys rest).bind fun _ => .rfl

omit h in
theorem readUnion_below (onNone : Error) (v : Value) : ∀ tys : List Ty,
    Below (readUnion shape onNone v tys) (readUnion shape' onNone v tys)
  | [] => .rfl
  | ty :: tys => (hshape v ty).orElse (readUnion_below onNone v tys)

theorem shapeWith_below (v : Value) (ty : Ty) :
    Below (shapeWith cx eval shape v ty) (shapeWith cx eval' shape' v ty) := by
  unfold shapeWith
  refine Below.rfl.bind fun view => ?_
  split
  · exact .rfl
  · exact (readThunks_below h hshape _ _).bind fun _ => .rfl
  · exact (readThunks_below h hshape _ _).bind fun _ => .rfl
  · exact (readFields_below h hshape _ _ _).bind fun _ => .rfl
  · exact (readThunk_below h hshape _ _).bind fun _ => .rfl
  · split
    · exact (readTuple_below h hshape _ _).bind fun _ => .rfl
    · exact .rfl
  · exact (h _ _ _).bind fun b => (readBackWith_below hshape b _).bind fun _ => .rfl
  · exact (readThunk_below h hshape _ _).bind fun _ => .rfl
  · exact .rfl
  · exact (readBackWith_below hshape _ _).bind fun _ =>
      (readThunk_below h hshape _ _).bind fun _ => .rfl
  · exact (readBackWith_below hshape _ _).bind fun _ =>
      (readThunk_below h hshape _ _).bind fun _ =>
        (readThunk_below h hshape _ _).bind fun _ => .rfl
  · exact (readBackWith_below hshape _ _).bind fun _ => .rfl
  · exact (readBackWith_below hshape _ _).bind fun _ => .rfl
  · exact .rfl
  · exact (readBackWith_below hshape _ _).bind fun _ => .rfl
  · exact (readBackWith_below hshape _ _).bind fun _ => .rfl
  · exact readUnion_below hshape _ _ _
  · exact .rfl

end

section

variable {cx : Context}

theorem evaluate_below : ∀ (n : Nat) (ρ : List Thunk) (depth : Nat) (t : Term),
    Below (evaluate cx n ρ depth t) (evaluate cx (n + 1) ρ depth t)
  | 0, _, _, _ => .outOfFuel
  | n + 1, ρ, depth, t => evaluateWith_below (evaluate_below n) ρ depth t

/-- An answer of evaluation by name stays when there is more fuel. -/
theorem evaluate_stays {n k : Nat} {ρ : List Thunk} {depth : Nat} {t : Term} (hle : n ≤ k)
    (h : evaluate cx n ρ depth t ≠ .error .outOfFuel) :
    evaluate cx k ρ depth t = evaluate cx n ρ depth t := by
  induction hle with
  | refl => rfl
  | step _ ih => rw [(evaluate_below _ ρ depth t).stays (ih ▸ h), ih]

theorem force_stays {n k : Nat} {θ : Thunk} (hle : n ≤ k)
    (h : force (evaluate cx n) θ ≠ .error .outOfFuel) :
    force (evaluate cx k) θ = force (evaluate cx n) θ := by
  cases θ with
  | delayed ρ depth t => exact evaluate_stays hle h
  | known v => rfl

theorem evaluate_comesTo {n : Nat} {ρ : List Thunk} {depth : Nat} {t : Term} {o : Result Value}
    (h : evaluate cx n ρ depth t = o) (ho : o ≠ .error .outOfFuel) :
    ComesTo (fun k => evaluate cx k ρ depth t) o :=
  ⟨n, fun k hk => (evaluate_stays hk (by rwa [h])).trans h⟩

theorem force_comesTo {n : Nat} {θ : Thunk} {o : Result Value}
    (h : force (evaluate cx n) θ = o) (ho : o ≠ .error .outOfFuel) :
    ComesTo (fun k => force (evaluate cx k) θ) o :=
  ⟨n, fun k hk => (force_stays hk (by rwa [h])).trans h⟩

theorem readShape_below : ∀ (n : Nat) (v : Value) (ty : Ty),
    Below (readShape cx n v ty) (readShape cx (n + 1) v ty)
  | 0, _, _ => .outOfFuel
  | n + 1, v, ty => shapeWith_below (evaluate_below n) (readShape_below n) v ty

theorem normalizeAt_below (n : Nat) (t : Term) (ty : Ty) :
    Below (normalizeAt cx n t ty) (normalizeAt cx (n + 1) t ty) :=
  (evaluate_below n [] 0 t).bind fun v => readBackWith_below (readShape_below n) v ty

/-- An answer of normalization by name stays when there is more fuel. -/
theorem normalizeAt_comesTo {n : Nat} {t : Term} {ty : Ty} {o : Result Term}
    (h : normalizeAt cx n t ty = o) (ho : o ≠ .error .outOfFuel) :
    ComesTo (fun k => normalizeAt cx k t ty) o := by
  refine ⟨n, fun k hk => ?_⟩
  dsimp only
  induction hk with
  | refl => exact h
  | step _ ih => rw [(normalizeAt_below _ t ty).stays (ih.symm ▸ ho), ih]

end

end Stagecraft.Eval.ByName
