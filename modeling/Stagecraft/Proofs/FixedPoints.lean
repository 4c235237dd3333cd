import Mathlib
import Stagecraft.Proofs.Reflection
import Stagecraft.Staged.Inferred

/-!
# Normal forms are fixed points

Without refined types, reading back the value of a normal form at any type does what reading back
the first value did, the alternatives of unions that fail included (`readShape_reflect`). With them,
a reading that succeeded succeeds again, and gives the same term (`readShape_again`). As evaluation
gives a normal form the value of its form, this makes it a fixed point of normalization.

Two deliberate mechanisms make normal forms that are none: where the unfolding limit stopped a call,
a second normalization starts to count anew, and where a refined type put a literal in place of a
stuck value, a test of the value does not wait for the literal.
-/

namespace Stagecraft.Eval.ByName

open Staged (Ty Pattern Term)

/-- An answer, if it is one, is what other answers come to. -/
def Tends {α : Type} (x : Result α) (y : Nat → Result α) : Prop :=
  x = .error .outOfFuel ∨ ComesTo y x

namespace Tends

variable {α β : Type} {x x' : Result α} {y y' : Nat → Result α}

theorem const (x : Result α) : Tends x fun _ => x := .inr (.const x)

theorem bind {f : α → Result β} {g : Nat → α → Result β} (h : Tends x y)
    (hf : ∀ a, Tends (f a) fun k => g k a) : Tends (x >>= f) fun k => y k >>= g k := by
  rcases h with rfl | h
  · exact .inl rfl
  · cases x with
    | error e => exact .inr h.bind_error
    | ok a =>
      rcases hf a with hout | hcomes
      · exact .inl hout
      · exact .inr (h.bind hcomes)

theorem orElse (h : Tends x y) (h' : Tends x' y') :
    Tends (Result.orElse x x') fun k => Result.orElse (y k) (y' k) := by
  rcases h with rfl | h
  · exact .inl rfl
  · match x, h with
    | .ok a, h => exact .inr h.orElse_ok
    | .error .outOfFuel, h => exact .inl rfl
    | .error (.failed e), h =>
      rcases h' with rfl | h'
      · exact .inl rfl
      · exact .inr (h.orElse_failed h')

theorem succ (h : Tends x fun k => y (k + 1)) : Tends x y := h.imp id ComesTo.succ

end Tends

section

variable {cx : Context} {σ : Standing} {k : Nat}

theorem Twins.tends {N : Nat} {θ θ' : Thunk} (h : Twins cx true N σ θ θ') {β : Type}
    {f : Value → Result β} {g : Nat → Value → Result β}
    (hf : ∀ u t, Normal cx true σ u t → Tends (f u) fun K => g K (reflect σ.thunks t)) :
    Tends (force (evaluate cx k) θ >>= f) fun K => force (evaluate cx K) θ' >>= g K := by
  by_cases hout : force (evaluate cx k) θ = .error .outOfFuel
  · rw [hout]
    exact .inl rfl
  · obtain ⟨u, hu⟩ : ∃ u, force (evaluate cx k) θ = .ok u := by
      obtain ⟨t, u, -, ⟨n, hn⟩, -⟩ := h
      exact ⟨u, (force_comesTo rfl hout).unique (force_comesTo hn nofun)⟩
    obtain ⟨t, hnormal, -, ht⟩ := h.look (evaluates_reflect N) hu
    rw [hu]
    rcases hf u t hnormal with hout | hcomes
    · exact .inl hout
    · exact .inr (ht.bind hcomes)

/-- The body of a function, entered with its variables standing for themselves. -/
theorem Normal.tends_body {p : Pattern} {b b' : Term} {ρ : List Thunk} {depth : Nat} {ty : Ty}
    (h : Normal cx true σ (.closure p b' ρ depth) (.lambda ty p b)) {β : Type}
    {f : Value → Result β} {g : Nat → Value → Result β}
    (hf : ∀ u, Normal cx true (σ.enter p.binders) u b →
      Tends (f u) fun K => g K (reflect (σ.enter p.binders).thunks b)) :
    Tends (evaluate cx k (ρ ++ neutrals p.binders) depth b' >>= f) fun K =>
      evaluate cx K (σ.thunks ++ neutrals p.binders) 0 b >>= g K := by
  obtain ⟨n, u, hu, hbody⟩ := h.closure
  by_cases hout : evaluate cx k (ρ ++ neutrals p.binders) depth b' = .error .outOfFuel
  · rw [hout]
    exact .inl rfl
  · have heq : evaluate cx k (ρ ++ neutrals p.binders) depth b' = .ok u :=
      (evaluate_comesTo rfl hout).unique (evaluate_comesTo hu nofun)
    rw [heq]
    rcases hf u hbody with hout | hcomes
    · exact .inl hout
    · have heval : Evals cx (σ.enter p.binders) b :=
        evaluates_reflect _ (Nat.lt_succ_self (sizeOf b)) hbody
      exact .inr (heval.bind hcomes)

/-- What read-back with some fuel finds, it finds on the value of the normal form. -/
def Rereads (cx : Context) (k : Nat) : Prop :=
  ∀ ⦃σ v t⦄ (ty : Ty), Normal cx true σ v t →
    Tends (readShape cx k v ty) fun K => readShape cx K (reflect σ.thunks t) ty

section

variable (hread : Rereads cx k) {N : Nat}

include hread

theorem readBackWith_reflect {v : Value} {t : Term} (h : Normal cx true σ v t) (ty : Ty) :
    Tends (readBackWith (readShape cx k) v ty) fun K =>
      readBackWith (readShape cx K) (reflect σ.thunks t) ty := by
  unfold readBackWith
  cases ty.singleton? with
  | some l => exact .const _
  | none => exact (hread ty h).bind fun s => .const _

theorem readThunk_reflect {θ θ' : Thunk} (h : Twins cx true N σ θ θ') (ty : Ty) :
    Tends (readThunk (evaluate cx k) (readShape cx k) θ ty) fun K =>
      readThunk (evaluate cx K) (readShape cx K) θ' ty :=
  h.tends fun _ _ hnormal => readBackWith_reflect hread hnormal ty

theorem readThunks_reflect (ty : Ty) {θs θs' : List Thunk}
    (h : List.Forall₂ (Twins cx true N σ) θs θs') :
    Tends (readThunks (evaluate cx k) (readShape cx k) ty θs) fun K =>
      readThunks (evaluate cx K) (readShape cx K) ty θs' := by
  induction h with
  | nil => exact .const _
  | cons h _ ih => exact (readThunk_reflect hread h ty).bind fun t => ih.bind fun ts => .const _

theorem readTuple_reflect {tys : List Ty} {θs θs' : List Thunk}
    (h : List.Forall₂ (Twins cx true N σ) θs θs') :
    Tends (readTuple (evaluate cx k) (readShape cx k) θs tys) fun K =>
      readTuple (evaluate cx K) (readShape cx K) θs' tys := by
  induction h generalizing tys with
  | nil => exact .const _
  | cons h _ ih =>
    cases tys with
    | nil => exact .const _
    | cons ty tys =>
      exact (readThunk_reflect hread h ty).bind fun t => ih.bind fun ts => .const _

theorem readFields_reflect (e : Error) (tys : List (String × Ty)) {fs gs : List (String × Thunk)}
    (h : List.Forall₂ (fun e f => e.1 = f.1 ∧ Twins cx true N σ e.2 f.2) fs gs) :
    Tends (readFields (evaluate cx k) (readShape cx k) e tys fs) fun K =>
      readFields (evaluate cx K) (readShape cx K) e tys gs := by
  induction h with
  | nil => exact .const _
  | @cons f g fs gs h _ ih =>
    obtain ⟨key, θ⟩ := f
    obtain ⟨key', θ'⟩ := g
    obtain ⟨hkey, hθ⟩ := h
    dsimp only at hkey hθ
    subst hkey
    unfold readFields
    cases Keyed.find? key tys with
    | none => exact .const _
    | some ty => exact (readThunk_reflect hread hθ ty).bind fun t => ih.bind fun ts => .const _

theorem readUnion_reflect (e : Error) {v : Value} {t : Term} (h : Normal cx true σ v t) :
    ∀ tys : List Ty, Tends (readUnion (readShape cx k) e v tys) fun K =>
      readUnion (readShape cx K) e (reflect σ.thunks t) tys
  | [] => .const _
  | ty :: tys => (hread ty h).orElse (readUnion_reflect e h tys)

theorem shapeWith_reflect {v : Value} {t : Term} (h : Normal cx true σ v t) (ty : Ty) :
    Tends (shapeWith cx (evaluate cx k) (readShape cx k) v ty) fun K =>
      shapeWith cx (evaluate cx K) (readShape cx K) (reflect σ.thunks t) ty := by
  unfold shapeWith
  refine (Tends.const _).bind fun view => ?_
  have hunion : ∀ tys, Tends (readUnion (readShape cx k) (atType v ty) v tys) fun K =>
      readUnion (readShape cx K) (atType (reflect σ.thunks t) ty)
        (reflect σ.thunks t) tys := by
    intro tys
    rw [h.quotes.atType]
    exact readUnion_reflect hread _ h tys
  have hfail : Tends (Result.fail (atType v ty) : Result Term) fun _ =>
      Result.fail (atType (reflect σ.thunks t) ty) := by
    rw [h.quotes.atType]
    exact .const _
  have hquotes := h.quotes
  cases hquotes with
  | literal | var | command => exact .const _
  | array => exact (readThunks_reflect hread _ (h.array le_rfl)).bind fun ts => .const _
  | list =>
    cases view with
    | list element =>
      exact (readThunks_reflect hread _ (h.list le_rfl)).bind fun ts => .const _
    | union tys => exact hunion tys
    | _ => exact hfail
  | compound =>
    cases view with
    | compound tys =>
      rw [h.quotes.atType]
      exact (readFields_reflect hread _ tys (h.compound le_rfl)).bind fun ts => .const _
    | union tys => exact hunion tys
    | _ => exact hfail
  | ref =>
    cases view with
    | ref element => exact (readThunk_reflect hread (h.ref le_rfl) element).bind fun t => .const _
    | union tys => exact hunion tys
    | _ => exact hfail
  | tuple =>
    cases view with
    | tuple tys =>
      have hparts := h.tuple le_rfl
      simp only [reflect, hparts.length_eq]
      split
      · exact (readTuple_reflect hread hparts).bind fun ts => .const _
      · exact hfail
    | union tys => exact hunion tys
    | _ => exact hfail
  | closure =>
    cases view with
    | function param result =>
      exact h.tends_body fun u hbody =>
        (readBackWith_reflect hread hbody result).bind fun s => .const _
    | union tys => exact hunion tys
    | _ => exact hfail
  | quote =>
    cases view with
    | code element =>
      exact (readThunk_reflect hread (h.quote le_rfl) element).bind fun t => .const _
    | union tys => exact hunion tys
    | _ => exact hfail
  | apply =>
    obtain ⟨-, hg, -, ha⟩ := h.apply le_rfl
    exact (readBackWith_reflect hread hg _).bind fun f =>
      (readThunk_reflect hread ha _).bind fun a => .const _
  | cond =>
    obtain ⟨-, -, hc, -, ha, hb⟩ := h.cond le_rfl
    exact (readBackWith_reflect hread hc _).bind fun c =>
      (readThunk_reflect hread ha _).bind fun a =>
        (readThunk_reflect hread hb _).bind fun b => .const _
  | call =>
    obtain ⟨-, -, ha, -⟩ := h.call le_rfl
    exact (readBackWith_reflect hread ha _).bind fun a => .const _
  | test =>
    obtain ⟨-, he, -⟩ := h.test le_rfl
    exact (readBackWith_reflect hread he _).bind fun e => .const _
  | splice =>
    obtain ⟨-, he, -⟩ := h.splice le_rfl
    exact (readBackWith_reflect hread he _).bind fun e => .const _
  | project =>
    obtain ⟨-, -, -, -, -, hi, -⟩ := h.project le_rfl
    exact (readBackWith_reflect hread hi _).bind fun i => .const _

end

/-- Reading back the value of a normal form gives what reading back the first value gave. -/
theorem readShape_reflect : ∀ k, Rereads cx k
  | 0 => fun _ _ _ _ _ => .inl rfl
  | k + 1 => fun _ _ _ ty h => (shapeWith_reflect (readShape_reflect k) h ty).succ

/-! ## A reading that succeeded succeeds again -/

theorem reflect_withTy (ρ : List Thunk) (t : Term) (ty : Ty) :
    reflect ρ (t.withTy ty) = reflect ρ t := by
  cases t with
  | letIn _ _ _ b => cases b <;> rfl
  | _ => rfl

/-- A term that was read back with some fuel is read back again from the value of its form. -/
def Again (cx : Context) (k : Nat) : Prop :=
  ∀ ⦃plain σ v s ty⦄, readShape cx k v ty = .ok s → Normal cx plain σ v (s.withTy ty) →
    ComesTo (fun K => readShape cx K (reflect σ.thunks s) ty) (.ok s)

section

variable {plain : Bool}

theorem Normal.body_again {p : Pattern} {b b' : Term} {ρ : List Thunk} {depth : Nat} {ty : Ty}
    {u : Value} (h : Normal cx plain σ (.closure p b' ρ depth) (.lambda ty p b))
    (hu : evaluate cx k (ρ ++ neutrals p.binders) depth b' = .ok u) :
    Normal cx plain (σ.enter p.binders) u b ∧
      ComesTo (fun K => evaluate cx K (σ.thunks ++ neutrals p.binders) 0 b)
        (.ok (reflect (σ.enter p.binders).thunks b)) := by
  obtain ⟨n, u', hu', hbody⟩ := h.closure
  have heq := (evaluate_comesTo hu nofun).unique (evaluate_comesTo hu' nofun)
  cases heq
  exact ⟨hbody, evaluates_reflect _ (Nat.lt_succ_self (sizeOf b)) hbody⟩

theorem isUnion_of_resolve {ty : Ty} {tys : List Ty}
    (h : resolve cx.definitions ty = .ok (.union tys)) : cx.isUnion ty = true := by
  unfold Context.isUnion
  rw [h]

/-- A term of a union type has no refined types inside. -/
theorem Normal.plain_of_isUnion {v : Value} {s : Term} {ty : Ty}
    (h : Normal cx plain σ v (s.withTy ty)) (hunion : cx.isUnion ty = true) :
    Normal cx true σ v (s.withTy ty) := by
  have hnode := h.node
  unfold Context.keeps at hnode
  rw [Bool.and_eq_true, Term.ty_withTy, hunion] at hnode
  exact h.toPlain hnode.1

end

section

variable {plain : Bool} (hagain : Again cx k) {N : Nat}

include hagain

theorem readBackWith_again {v : Value} {ty : Ty} {t : Term} (h : Normal cx plain σ v t)
    (hread : readBackWith (readShape cx k) v ty = .ok t) :
    ComesTo (fun K => readBackWith (readShape cx K) (reflect σ.thunks t) ty) (.ok t) := by
  rcases readBackWith_ok hread with ⟨l, hl, rfl⟩ | ⟨s, hnone, hs, rfl⟩
  · unfold readBackWith
    rw [hl]
    exact .const _
  · unfold readBackWith
    rw [hnone, reflect_withTy]
    exact (hagain hs h).bind (.const _)

theorem readThunk_again {θ : Thunk} {ty : Ty} {t : Term}
    (h : Twins cx plain N σ θ (.delayed σ.thunks 0 t))
    (hread : readThunk (evaluate cx k) (readShape cx k) θ ty = .ok t) :
    ComesTo (fun K => readThunk (evaluate cx K) (readShape cx K) (.delayed σ.thunks 0 t) ty)
      (.ok t) := by
  obtain ⟨t', u, heq, hgives, hnormal, -⟩ := h
  cases heq
  obtain ⟨u', hu, hread⟩ := Except.bind_ok.1 hread
  cases hgives.unique hu
  have heval : Evals cx σ t := evaluates_reflect _ (Nat.lt_succ_self (sizeOf t)) hnormal
  exact heval.bind (readBackWith_again hagain hnormal hread)

theorem readThunks_again {ty : Ty} : ∀ {θs : List Thunk} {ts : List Term},
    List.Forall₂ (Twins cx plain N σ) θs (ts.map (.delayed σ.thunks 0)) →
      readThunks (evaluate cx k) (readShape cx k) ty θs = .ok ts →
        ComesTo (fun K => readThunks (evaluate cx K) (readShape cx K) ty
          (ts.map (.delayed σ.thunks 0))) (.ok ts)
  | [], [], _, _ => .const _
  | θ :: θs, t :: ts, .cons h hs, hread => by
    rw [readThunks] at hread
    obtain ⟨t', hfirst, hread⟩ := Except.bind_ok.1 hread
    obtain ⟨ts', hrest, heq⟩ := Except.bind_ok.1 hread
    cases heq
    exact (readThunk_again hagain h hfirst).bind ((readThunks_again hs hrest).bind (.const _))

theorem readTuple_again : ∀ {θs : List Thunk} {ts : List Term} {tys : List Ty},
    List.Forall₂ (Twins cx plain N σ) θs (ts.map (.delayed σ.thunks 0)) →
      readTuple (evaluate cx k) (readShape cx k) θs tys = .ok ts →
        ComesTo (fun K => readTuple (evaluate cx K) (readShape cx K)
          (ts.map (.delayed σ.thunks 0)) tys) (.ok ts)
  | [], [], _, _, _ => .const _
  | θ :: θs, t :: ts, [], _, hread => by cases hread
  | θ :: θs, t :: ts, ty :: tys, .cons h hs, hread => by
    rw [readTuple] at hread
    obtain ⟨t', hfirst, hread⟩ := Except.bind_ok.1 hread
    obtain ⟨ts', hrest, heq⟩ := Except.bind_ok.1 hread
    cases heq
    exact (readThunk_again hagain h hfirst).bind ((readTuple_again hs hrest).bind (.const _))

theorem readFields_again {e e' : Error} {tys : List (String × Ty)} :
    ∀ {fs : List (String × Thunk)} {ts : List (String × Term)},
      List.Forall₂ (fun e f => e.1 = f.1 ∧ Twins cx plain N σ e.2 f.2) fs
          (ts.map fun f => (f.1, .delayed σ.thunks 0 f.2)) →
        readFields (evaluate cx k) (readShape cx k) e tys fs = .ok ts →
          ComesTo (fun K => readFields (evaluate cx K) (readShape cx K) e' tys
            (ts.map fun f => (f.1, .delayed σ.thunks 0 f.2))) (.ok ts)
  | [], [], _, _ => .const _
  | (key, θ) :: fs, (key', t) :: ts, .cons h hs, hread => by
    obtain ⟨hkey, hθ⟩ := h
    dsimp only at hkey hθ
    subst hkey
    rw [readFields] at hread
    rw [List.map_cons]
    unfold readFields
    cases hty : Keyed.find? key tys with
    | none =>
      rw [hty] at hread
      cases hread
    | some ty =>
      rw [hty] at hread
      obtain ⟨t', hfirst, hread⟩ := Except.bind_ok.1 hread
      obtain ⟨ts', hrest, heq⟩ := Except.bind_ok.1 hread
      cases heq
      exact (readThunk_again hagain hθ hfirst).bind ((readFields_again hs hrest).bind (.const _))

theorem shapeWith_again {v : Value} {s : Term} {ty : Ty}
    (h : Normal cx plain σ v (s.withTy ty))
    (hs : shapeWith cx (evaluate cx k) (readShape cx k) v ty = .ok s) :
    ComesTo (fun K => shapeWith cx (evaluate cx K) (readShape cx K)
      (reflect σ.thunks s) ty) (.ok s) := by
  by_cases hunion : cx.isUnion ty = true
  · have htends := shapeWith_reflect (readShape_reflect k) (h.plain_of_isUnion hunion) ty
    rw [hs, reflect_withTy] at htends
    rcases htends with hout | hcomes
    · cases hout
    · exact hcomes
  obtain ⟨view, hview, -⟩ := Except.bind_ok.1 hs
  have hsame : ComesTo (fun _ => Result.ofExcept (resolve cx.definitions ty)) (.ok view) :=
    ⟨0, fun _ _ => hview⟩
  rw [Result.ofExcept_ok] at hview
  unfold shapeWith
  refine hsame.bind ?_
  cases shaped_of_shapeWith hs with
  | literal => exact .const _
  | array hts => exact (readThunks_again hagain (h.array le_rfl) hts).bind (.const _)
  | list hlist hts =>
    cases hview.symm.trans hlist
    exact (readThunks_again hagain (h.list le_rfl) hts).bind (.const _)
  | compound hcompound hts =>
    cases hview.symm.trans hcompound
    exact (readFields_again hagain (h.compound le_rfl) hts).bind (.const _)
  | ref href ht =>
    cases hview.symm.trans href
    exact (readThunk_again hagain (h.ref le_rfl) ht).bind (.const _)
  | tuple htuple hlen hts =>
    cases hview.symm.trans htuple
    have hparts := h.tuple le_rfl
    simp only [reflect, ← hparts.length_eq, hlen, if_true]
    exact (readTuple_again hagain hparts hts).bind (.const _)
  | closure hfunction hu ht =>
    cases hview.symm.trans hfunction
    obtain ⟨hbody, heval⟩ := h.body_again hu
    exact heval.bind ((readBackWith_again hagain hbody ht).bind (.const _))
  | quote hcode ht =>
    cases hview.symm.trans hcode
    exact (readThunk_again hagain (h.quote le_rfl) ht).bind (.const _)
  | var => exact .const _
  | apply hf ha =>
    obtain rfl := (readThunk_quotes (quotes_of_readShape k) ha).2
    obtain ⟨-, hg, -, hargument⟩ := h.apply le_rfl
    exact (readBackWith_again hagain hg hf).bind
      ((readThunk_again hagain hargument ha).bind (.const _))
  | cond hc ha hb =>
    obtain ⟨-, -, hcondition, -, hthen, helse⟩ := h.cond le_rfl
    exact (readBackWith_again hagain hcondition hc).bind ((readThunk_again hagain hthen ha).bind
      ((readThunk_again hagain helse hb).bind (.const _)))
  | call ha =>
    obtain rfl := (readBackWith_quotes (quotes_of_readShape k) ha).2
    obtain ⟨-, -, hargument, -⟩ := h.call le_rfl
    exact (readBackWith_again hagain hargument ha).bind (.const _)
  | test he =>
    obtain rfl := (readBackWith_quotes (quotes_of_readShape k) he).2
    obtain ⟨-, hscrutinee, -⟩ := h.test le_rfl
    exact (readBackWith_again hagain hscrutinee he).bind (.const _)
  | command => exact .const _
  | splice he =>
    obtain rfl := (readBackWith_quotes (quotes_of_readShape k) he).2
    obtain ⟨-, helement, -⟩ := h.splice le_rfl
    exact (readBackWith_again hagain helement he).bind (.const _)
  | project hi =>
    obtain ⟨-, -, -, -, -, hinit, -⟩ := h.project le_rfl
    exact (readBackWith_again hagain hinit hi).bind (.const _)
  | union hresolved _ => exact absurd (isUnion_of_resolve hresolved) hunion

end

/-- A term that was read back is read back again from the value of its form. -/
theorem readShape_again : ∀ k, Again cx k
  | 0 => fun _ _ _ _ _ hs _ => nomatch hs
  | k + 1 => fun _ _ _ _ _ hs h => (shapeWith_again (readShape_again k) h hs).succ

end

end Stagecraft.Eval.ByName

namespace Stagecraft.Eval

open Staged (Ty Pattern Term)

section

variable {cx : Context} {n : Nat} {t t' : Term}

end

/-- A function of a pair that destructures the pair, multiplies two known numbers and tests a
component. -/
def destructured : Term :=
  let pair : Ty := .tuple [.int, .int]
  .ofLambda (.var (Pattern.plain pair) ⟨"p", 0⟩)
    (.ofLet (.tuple (Pattern.plain pair) [.var (Pattern.plain .int) ⟨"u", 1⟩,
        .var (Pattern.plain .int) ⟨"w", 2⟩]) (.var pair ⟨"p", 0⟩)
      (.ofLet (.var (Pattern.plain .int) ⟨"y", 3⟩)
        (.call .int (Staged.preludeName "int_mul")
          (.ofTuple [.ofLiteral (.int 2), .ofLiteral (.int 3)]))
        (.ofCond (.ofTest (.var .int ⟨"u", 1⟩) (.int (Pattern.plain .int) 0)) (.var .int ⟨"y", 3⟩)
          (.call .int (Staged.preludeName "int_add")
            (.ofTuple [.var .int ⟨"w", 2⟩, .var .int ⟨"y", 3⟩])))))

/-- Its normal form: the test and the sum wait for projections of the pair, the product is known. -/
def projected : Term :=
  let pair : Ty := .tuple [.int, .int]
  let parts : Pattern := .tuple (Pattern.plain pair) [.var (Pattern.plain .int) ⟨"u", 1⟩,
    .var (Pattern.plain .int) ⟨"w", 2⟩]
  .ofLambda (.var (Pattern.plain pair) ⟨"p", 0⟩)
    (.ofCond (.ofTest (.ofLet parts (.var pair ⟨"p", 0⟩) (.var .int ⟨"u", 1⟩))
        (.int (Pattern.plain .int) 0)) (.ofLiteral (.int 6))
      (.call .int (Staged.preludeName "int_add")
        (.ofTuple [.ofLet parts (.var pair ⟨"p", 0⟩) (.var .int ⟨"w", 2⟩), .ofLiteral (.int 6)])))

/-- Normalization changes a normal form of a term. -/
def Changes (cx : Context) (t t' : Term) : Prop :=
  (∃ n, normalize cx n t = .ok t') ∧ ∀ k, normalize cx k t' ≠ .ok t'

/-- A function that calls the identity. -/
def relayed : Staged.Table := .ofList [
  .function ⟨[], ⟨["main"], "f"⟩, .var (Pattern.plain .int) ⟨"x", 0⟩, .int,
    .call .int ⟨["main"], "g"⟩ (.var .int ⟨"x", 0⟩)⟩,
  .function ⟨[], ⟨["main"], "g"⟩, .var (Pattern.plain .int) ⟨"x", 0⟩, .int, .var .int ⟨"x", 0⟩⟩]

/-- A test of a variable of a refined type, or of what is read back for it. -/
def testsFive (scrutinee : Term) : Term :=
  .ofLambda (.var (Pattern.plain (.singleton (.int 5))) ⟨"x", 0⟩)
    (.ofTest scrutinee (.int (Pattern.plain .int) 5))

end Stagecraft.Eval
