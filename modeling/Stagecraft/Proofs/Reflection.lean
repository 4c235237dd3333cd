import Stagecraft.Proofs.NormalForms

/-!
# The value of a normal form

The variables in scope of a normal form stand for themselves, so evaluation finds no redex in it: its
value has the form of the term (`evaluates_reflect`). A test or a native function looks at parts of
its argument; what it sees there is, part by part, what it saw when it gave no answer.
-/

namespace Stagecraft.Eval.ByName

open Staged (Ty Pattern Term)

/-- The value that has the form of a normal form. -/
def reflect (ρ : List Thunk) : Term → Value
  | .literal _ l => .literal l
  | .array _ kind es => .array kind (es.map (.delayed ρ 0))
  | .list _ es => .list (es.map (.delayed ρ 0))
  | .compound _ fields => .compound (fields.map fun f => (f.1, .delayed ρ 0 f.2))
  | .ref _ e => .ref (.delayed ρ 0 e)
  | .tuple _ es => .tuple (es.map (.delayed ρ 0))
  | .lambda _ p b => .closure p b ρ 0
  | .apply _ f a => .apply (reflect ρ f) (.delayed ρ 0 a) a.ty
  | .cond _ c a b => .cond (reflect ρ c) (.delayed ρ 0 a) (.delayed ρ 0 b)
  | .letIn _ p i (.var _ x) => .project p (reflect ρ i) x
  | .var _ v => .var v
  | .call _ name a => .call name (reflect ρ a) a.ty
  | .test _ e p => .test (reflect ρ e) p e.ty
  | .command _ line => .command line
  | .quote _ e => .quote (.delayed ρ 0 e)
  | .splice _ e => .splice (reflect ρ e) e.ty
  | .letIn .. | .hole _ => .command ""

section

variable {cx : Context} {v : Value} {t : Term}

theorem Quotes.seen (h : Quotes cx v t) (ρ : List Thunk) : (reflect ρ t).seen = v.seen := by
  cases h <;> simp only [reflect, Value.seen]

theorem Quotes.isNeutral (h : Quotes cx v t) (ρ : List Thunk) :
    (reflect ρ t).isNeutral = v.isNeutral := by
  cases h <;> simp only [reflect, Value.isNeutral]

theorem Quotes.head (h : Quotes cx v t) (ρ : List Thunk) : (reflect ρ t).head = v.head := by
  cases h <;> simp only [reflect, Value.head]

theorem Quotes.isClosure (h : Quotes cx v t) (ρ : List Thunk) :
    (reflect ρ t).isClosure = v.isClosure := by
  cases h <;> simp only [reflect, Value.isClosure]

theorem Quotes.isQuote (h : Quotes cx v t) (ρ : List Thunk) :
    (reflect ρ t).isQuote = v.isQuote := by
  cases h <;> simp only [reflect, Value.isQuote]

theorem Quotes.atType (h : Quotes cx v t) (ρ : List Thunk) (ty : Ty) :
    atType (reflect ρ t) ty = atType v ty := by
  rw [ByName.atType, ByName.atType, h.head]

end

section

variable {cx : Context} {v : Value} {t : Term}

/-- A stuck operator reads back to no function. -/
theorem ReadsTo.isClosure (h : ReadsTo cx v t) (hv : v.isClosure = false) (ρ : List Thunk) :
    (reflect ρ t).isClosure = false := by
  cases h with
  | refined => rfl
  | form _ hquotes => rw [hquotes.isClosure, hv]

/-- A stuck splice reads back to one of no quoted term. -/
theorem ReadsTo.isQuote (h : ReadsTo cx v t) (hv : v.isQuote = false) (ρ : List Thunk) :
    (reflect ρ t).isQuote = false := by
  cases h with
  | refined => rfl
  | form _ hquotes => rw [hquotes.isQuote, hv]

end

/-! ## Normal forms and their parts -/

/-- Variables in scope, and what is in their places: a variable whose level is its place stands for
itself, so it may occur in a normal form. -/
structure Standing where
  vars : List Var
  thunks : List Thunk
  length_eq : thunks.length = vars.length
  stands : ∀ x : Var, vars[x.level]? = some x → thunks[x.level]? = some (.known (.var x))

namespace Standing

/-- Nothing in scope. -/
def empty : Standing := ⟨[], [], rfl, nofun⟩

/-- Further variables that stand for themselves. -/
def enter (σ : Standing) (vs : List Var) : Standing where
  vars := σ.vars ++ vs
  thunks := σ.thunks ++ neutrals vs
  length_eq := by simp only [List.length_append, σ.length_eq, neutrals, List.length_map]
  stands := by
    intro x hx
    by_cases hlt : x.level < σ.vars.length
    · rw [List.getElem?_append_left hlt] at hx
      rw [List.getElem?_append_left (σ.length_eq ▸ hlt)]
      exact σ.stands x hx
    · rw [List.getElem?_append_right (Nat.not_lt.1 hlt)] at hx
      rw [List.getElem?_append_right (σ.length_eq ▸ Nat.not_lt.1 hlt), σ.length_eq, neutrals,
        List.getElem?_map, hx]
      rfl

end Standing

/-- A term that a value reads back to, where variables stand for themselves; a plain one has no
refined types. -/
structure Normal (cx : Context) (plain : Bool) (σ : Standing) (v : Value) (t : Term) : Prop where
  reads : ReadsTo cx v t
  waits : v.Waits cx
  levelled : t.isLevelled σ.vars = true
  keeps : t.everywhere (cx.keepsAt plain) = true

/-- A thunk, and the thunk of a normal form smaller than a bound that its value reads back to. -/
def Twins (cx : Context) (plain : Bool) (N : Nat) (σ : Standing) (θ θ' : Thunk) : Prop :=
  ∃ t u, θ' = .delayed σ.thunks 0 t ∧ Gives cx θ u ∧ Normal cx plain σ u t ∧
    sizeOf t < N

/-- Evaluation gives a normal form the value of its form. -/
def Evals (cx : Context) (σ : Standing) (t : Term) : Prop :=
  ComesTo (fun k => evaluate cx k σ.thunks 0 t) (.ok (reflect σ.thunks t))

section

variable {cx : Context} {plain : Bool} {N : Nat} {σ : Standing}

theorem everywhere_keepsAt (t : Term) :
    t.everywhere (cx.keepsAt true) = (t.everywhere cx.keeps && t.isUnrefined) :=
  Term.everywhere_and (fun _ => rfl) t

theorem everywhere_keepsAt_false (t : Term) :
    t.everywhere (cx.keepsAt false) = t.everywhere cx.keeps := by
  have hsame : cx.keepsAt false = cx.keeps := funext fun s => Bool.and_true _
  rw [hsame]

theorem Normal.toPlain {v : Value} {t : Term} (h : Normal cx plain σ v t)
    (ht : t.isUnrefined = true) : Normal cx true σ v t := by
  have hsplit := Term.everywhere_and (r := cx.keepsAt plain) (fun _ => rfl) t
  have hkeeps := h.keeps
  rw [hsplit, Bool.and_eq_true] at hkeeps
  have hplain : t.everywhere (cx.keepsAt true) = true := by
    rw [everywhere_keepsAt, hkeeps.1, ht]
    rfl
  exact ⟨h.reads, h.waits, h.levelled, hplain⟩

theorem Normal.quotes {v : Value} {t : Term} (h : Normal cx true σ v t) : Quotes cx v t := by
  have hkeeps := h.keeps
  rw [everywhere_keepsAt, Bool.and_eq_true, Term.isUnrefined] at hkeeps
  have hnode : t.isPlainNode = true := (Bool.and_eq_true _ _ ▸ hkeeps.2).1
  exact h.reads.quotes (Option.isNone_iff_eq_none.1 hnode)

theorem Normal.node {v : Value} {t : Term} (h : Normal cx plain σ v t) : cx.keeps t = true := by
  have hkeeps := h.keeps
  rw [Term.everywhere, Context.keepsAt, Bool.and_eq_true, Bool.and_eq_true] at hkeeps
  exact hkeeps.1.1

theorem Gives.unique {θ : Thunk} {u v : Value} {k : Nat} (h : Gives cx θ u)
    (hk : force (evaluate cx k) θ = .ok v) : u = v := by
  obtain ⟨n, hn⟩ := h
  have heq := (force_comesTo hn nofun).unique (force_comesTo hk nofun)
  cases heq
  rfl

theorem Gives.waits {θ : Thunk} {u : Value} (h : Gives cx θ u) (hθ : Thunk.Waits cx θ) :
    u.Waits cx := by
  obtain ⟨n, hn⟩ := h
  exact force_waits (evaluate_waits n) θ hθ u hn

theorem twins_of_quotes {θ : Thunk} {t : Term} (h : QuotesThunk cx θ t) (hθ : Thunk.Waits cx θ)
    (hlevelled : t.isLevelled σ.vars = true) (hkeeps : t.everywhere (cx.keepsAt plain) = true)
    (hsize : sizeOf t < N) : Twins cx plain N σ θ (.delayed σ.thunks 0 t) := by
  cases h with
  | intro hgives hquotes =>
    exact ⟨t, _, rfl, hgives, ⟨hquotes, hgives.waits hθ, hlevelled, hkeeps⟩, hsize⟩

theorem twinsAll_of_quotes : ∀ {θs : List Thunk} {ts : List Term}, QuotesAll cx θs ts →
    AllWait cx θs → Term.areLevelled σ.vars ts = true →
      Term.allEverywhere (cx.keepsAt plain) ts = true → sizeOf ts < N →
        List.Forall₂ (Twins cx plain N σ) θs (ts.map (.delayed σ.thunks 0))
  | [], _, .nil, _, _, _, _ => .nil
  | θ :: θs, t :: ts, .cons h hs, hwait, hlevelled, hkeeps, hsize => by
    rw [Term.areLevelled, Bool.and_eq_true] at hlevelled
    rw [Term.allEverywhere, Bool.and_eq_true] at hkeeps
    have hsizes : sizeOf t < N ∧ sizeOf ts < N := by
      rw [List.cons.sizeOf_spec] at hsize
      omega
    refine .cons ?_ ?_
    · exact twins_of_quotes h (hwait θ List.mem_cons_self) hlevelled.1 hkeeps.1 hsizes.1
    · exact twinsAll_of_quotes hs (fun η hη => hwait η (List.mem_cons_of_mem _ hη)) hlevelled.2
        hkeeps.2 hsizes.2

theorem twinsFields_of_quotes : ∀ {fs : List (String × Thunk)} {ts : List (String × Term)},
    QuotesFields cx fs ts → (∀ f ∈ fs, Thunk.Waits cx f.2) →
      Term.areFieldsLevelled σ.vars ts = true → Term.fieldsEverywhere (cx.keepsAt plain) ts = true →
        sizeOf ts < N → List.Forall₂ (fun e f => e.1 = f.1 ∧ Twins cx plain N σ e.2 f.2) fs
          (ts.map fun f => (f.1, .delayed σ.thunks 0 f.2))
  | [], _, .nil, _, _, _, _ => .nil
  | (key, θ) :: fs, (_, t) :: ts, .cons h hs, hwait, hlevelled, hkeeps, hsize => by
    rw [Term.areFieldsLevelled, Bool.and_eq_true] at hlevelled
    rw [Term.fieldsEverywhere, Bool.and_eq_true] at hkeeps
    have hsizes : sizeOf t < N ∧ sizeOf ts < N := by
      rw [List.cons.sizeOf_spec, Prod.mk.sizeOf_spec] at hsize
      omega
    refine .cons ⟨rfl, ?_⟩ ?_
    · exact twins_of_quotes h (hwait (key, θ) List.mem_cons_self) hlevelled.1 hkeeps.1 hsizes.1
    · exact twinsFields_of_quotes hs (fun f hf => hwait f (List.mem_cons_of_mem _ hf)) hlevelled.2
        hkeeps.2 hsizes.2

/-! ### The parts of normal forms -/

namespace Normal

section

variable {θs : List Thunk} {θ θ' : Thunk} {f v : Value} {ty ty' : Ty} {ts : List Term}
  {a b b' c g i t : Term} {p : Pattern} {x : Var}

theorem array {kind : ArrayKind} (h : Normal cx plain σ (.array kind θs) (.array ty kind ts))
    (hsize : sizeOf (Term.array ty kind ts) ≤ N) :
    List.Forall₂ (Twins cx plain N σ) θs (ts.map (.delayed σ.thunks 0)) := by
  obtain ⟨hreads, hwaits, hlevelled, hkeeps⟩ := h
  rw [Term.everywhere, Bool.and_eq_true] at hkeeps
  rw [Term.array.sizeOf_spec] at hsize
  cases hreads.of_isLiteral rfl with
  | array hparts =>
    cases hwaits with
    | array hwaits => exact twinsAll_of_quotes hparts hwaits hlevelled hkeeps.2 (by omega)

theorem list (h : Normal cx plain σ (.list θs) (.list ty ts))
    (hsize : sizeOf (Term.list ty ts) ≤ N) :
    List.Forall₂ (Twins cx plain N σ) θs (ts.map (.delayed σ.thunks 0)) := by
  obtain ⟨hreads, hwaits, hlevelled, hkeeps⟩ := h
  rw [Term.everywhere, Bool.and_eq_true] at hkeeps
  rw [Term.list.sizeOf_spec] at hsize
  cases hreads.of_isLiteral rfl with
  | list hparts =>
    cases hwaits with
    | list hwaits => exact twinsAll_of_quotes hparts hwaits hlevelled hkeeps.2 (by omega)

theorem tuple (h : Normal cx plain σ (.tuple θs) (.tuple ty ts))
    (hsize : sizeOf (Term.tuple ty ts) ≤ N) :
    List.Forall₂ (Twins cx plain N σ) θs (ts.map (.delayed σ.thunks 0)) := by
  obtain ⟨hreads, hwaits, hlevelled, hkeeps⟩ := h
  rw [Term.everywhere, Bool.and_eq_true] at hkeeps
  rw [Term.tuple.sizeOf_spec] at hsize
  cases hreads.of_isLiteral rfl with
  | tuple hparts =>
    cases hwaits with
    | tuple hwaits => exact twinsAll_of_quotes hparts hwaits hlevelled hkeeps.2 (by omega)

theorem compound {fs : List (String × Thunk)} {ts : List (String × Term)}
    (h : Normal cx plain σ (.compound fs) (.compound ty ts))
    (hsize : sizeOf (Term.compound ty ts) ≤ N) :
    List.Forall₂ (fun e f => e.1 = f.1 ∧ Twins cx plain N σ e.2 f.2) fs
      (ts.map fun f => (f.1, .delayed σ.thunks 0 f.2)) := by
  obtain ⟨hreads, hwaits, hlevelled, hkeeps⟩ := h
  rw [Term.everywhere, Bool.and_eq_true] at hkeeps
  rw [Term.compound.sizeOf_spec] at hsize
  cases hreads.of_isLiteral rfl with
  | compound hparts =>
    cases hwaits with
    | compound hwaits => exact twinsFields_of_quotes hparts hwaits hlevelled hkeeps.2 (by omega)

theorem ref (h : Normal cx plain σ (.ref θ) (.ref ty t)) (hsize : sizeOf (Term.ref ty t) ≤ N) :
    Twins cx plain N σ θ (.delayed σ.thunks 0 t) := by
  obtain ⟨hreads, hwaits, hlevelled, hkeeps⟩ := h
  rw [Term.everywhere, Bool.and_eq_true] at hkeeps
  rw [Term.ref.sizeOf_spec] at hsize
  cases hreads.of_isLiteral rfl with
  | ref hpart =>
    cases hwaits with
    | ref hwaits => exact twins_of_quotes hpart hwaits hlevelled hkeeps.2 (by omega)

theorem quote (h : Normal cx plain σ (.quote θ) (.quote ty t))
    (hsize : sizeOf (Term.quote ty t) ≤ N) :
    Twins cx plain N σ θ (.delayed σ.thunks 0 t) := by
  obtain ⟨hreads, hwaits, hlevelled, hkeeps⟩ := h
  rw [Term.everywhere, Bool.and_eq_true] at hkeeps
  rw [Term.quote.sizeOf_spec] at hsize
  cases hreads.of_isLiteral rfl with
  | quote hpart =>
    cases hwaits with
    | quote hwaits => exact twins_of_quotes hpart hwaits hlevelled hkeeps.2 (by omega)

/-- The body of a function, in the scope of its binder. -/
theorem closure {ρ : List Thunk} {depth : Nat}
    (h : Normal cx plain σ (.closure p b' ρ depth) (.lambda ty p b)) :
    ∃ n u, evaluate cx n (ρ ++ neutrals p.binders) depth b' = .ok u ∧
      Normal cx plain (σ.enter p.binders) u b := by
  obtain ⟨hreads, hwaits, hlevelled, hkeeps⟩ := h
  rw [Term.isLevelled] at hlevelled
  rw [Term.everywhere, Bool.and_eq_true] at hkeeps
  cases hreads.of_isLiteral rfl with
  | closure hu hbody =>
    cases hwaits with
    | closure hwaits =>
      have hwaits' := evaluate_waits _ _ _ _ (AllWait.append hwaits (.neutrals p.binders)) _ hu
      exact ⟨_, _, hu, hbody, hwaits', hlevelled, hkeeps.2⟩

theorem apply (h : Normal cx plain σ (.apply f θ ty') (.apply ty g a))
    (hsize : sizeOf (Term.apply ty g a) ≤ N) :
    f.isClosure = false ∧ Normal cx plain σ f g ∧ sizeOf g < N ∧
      Twins cx plain N σ θ (.delayed σ.thunks 0 a) := by
  obtain ⟨hreads, hwaits, hlevelled, hkeeps⟩ := h
  rw [Term.isLevelled, Bool.and_eq_true] at hlevelled
  rw [Term.everywhere, Term.inside, Bool.and_eq_true, Bool.and_eq_true] at hkeeps
  rw [Term.apply.sizeOf_spec] at hsize
  cases hreads.of_isLiteral rfl with
  | apply hf ha =>
    cases hwaits with
    | apply hwaits hopen hθ =>
      exact ⟨hopen, ⟨hf, hwaits, hlevelled.1, hkeeps.2.1⟩, by omega,
        twins_of_quotes ha hθ hlevelled.2 hkeeps.2.2 (by omega)⟩

theorem cond (h : Normal cx plain σ (.cond v θ θ') (.cond ty c a b))
    (hsize : sizeOf (Term.cond ty c a b) ≤ N) :
    v.seen.bool? = none ∧ Quotes cx v c ∧ Normal cx plain σ v c ∧ sizeOf c < N ∧
      Twins cx plain N σ θ (.delayed σ.thunks 0 a) ∧
        Twins cx plain N σ θ' (.delayed σ.thunks 0 b) := by
  obtain ⟨hreads, hwaits, hlevelled, hkeeps⟩ := h
  rw [Term.isLevelled, Bool.and_eq_true, Bool.and_eq_true] at hlevelled
  rw [Term.everywhere, Term.inside, Bool.and_eq_true, Bool.and_eq_true, Bool.and_eq_true] at hkeeps
  rw [Term.cond.sizeOf_spec] at hsize
  cases hreads.of_isLiteral rfl with
  | cond hplain hc ha hb =>
    cases hwaits with
    | cond hwaits hnone hθ hθ' =>
      exact ⟨hnone, hc, ⟨.form hplain hc, hwaits, hlevelled.1.1, hkeeps.2.1.1⟩, by omega,
        twins_of_quotes ha hθ hlevelled.1.2 hkeeps.2.1.2 (by omega),
        twins_of_quotes hb hθ' hlevelled.2 hkeeps.2.2 (by omega)⟩

theorem call {name : DefName} (h : Normal cx plain σ (.call name v ty') (.call ty name a))
    (hsize : sizeOf (Term.call ty name a) ≤ N) :
    Stays cx name v ∧ cx.unfolds name = false ∧ Normal cx true σ v a ∧ sizeOf a < N := by
  have hnode := h.node
  obtain ⟨hreads, hwaits, hlevelled, hkeeps⟩ := h
  rw [Term.everywhere, Bool.and_eq_true] at hkeeps
  rw [Term.call.sizeOf_spec] at hsize
  simp only [Context.keeps, Bool.and_eq_true, Bool.not_eq_true'] at hnode
  cases hreads.of_isLiteral rfl with
  | call ha =>
    cases hwaits with
    | call hwaits hstays =>
      have hargument : Normal cx plain σ v a := ⟨ha, hwaits, hlevelled, hkeeps.2⟩
      exact ⟨hstays, hnode.2.1, hargument.toPlain hnode.2.2, by omega⟩

theorem test (h : Normal cx plain σ (.test v p ty') (.test ty t p))
    (hsize : sizeOf (Term.test ty t p) ≤ N) :
    (∃ k, decideMatch (force (evaluate cx k)) p v = .ok none) ∧ Normal cx true σ v t ∧
      sizeOf t < N := by
  have hnode := h.node
  obtain ⟨hreads, hwaits, hlevelled, hkeeps⟩ := h
  rw [Term.everywhere, Bool.and_eq_true] at hkeeps
  rw [Term.test.sizeOf_spec] at hsize
  simp only [Context.keeps, Bool.and_eq_true] at hnode
  cases hreads.of_isLiteral rfl with
  | test ht =>
    cases hwaits with
    | test hwaits hverdict =>
      have hscrutinee : Normal cx plain σ v t := ⟨ht, hwaits, hlevelled, hkeeps.2⟩
      exact ⟨⟨_, hverdict⟩, hscrutinee.toPlain hnode.2, by omega⟩

theorem splice (h : Normal cx plain σ (.splice v ty') (.splice ty t))
    (hsize : sizeOf (Term.splice ty t) ≤ N) :
    v.isQuote = false ∧ Normal cx plain σ v t ∧ sizeOf t < N := by
  obtain ⟨hreads, hwaits, hlevelled, hkeeps⟩ := h
  rw [Term.everywhere, Bool.and_eq_true] at hkeeps
  rw [Term.splice.sizeOf_spec] at hsize
  cases hreads.of_isLiteral rfl with
  | splice ht =>
    cases hwaits with
    | splice hwaits hopen => exact ⟨hopen, ⟨ht, hwaits, hlevelled, hkeeps.2⟩, by omega⟩

theorem project (h : Normal cx plain σ (.project p v x) (.letIn ty p i (.var ty' x)))
    (hsize : sizeOf (Term.letIn ty p i (.var ty' x)) ≤ N) :
    v.isNeutral = true ∧ isStructured p = true ∧ x ∈ p.binders ∧
      Var.areFrom σ.vars.length p.binders = true ∧ Quotes cx v i ∧ Normal cx plain σ v i ∧
        sizeOf i < N := by
  have hnode := h.node
  obtain ⟨hreads, hwaits, hlevelled, hkeeps⟩ := h
  rw [Term.isLevelled, Bool.and_eq_true, Bool.and_eq_true] at hlevelled
  rw [Term.everywhere, Term.inside, Bool.and_eq_true, Bool.and_eq_true] at hkeeps
  rw [Term.letIn.sizeOf_spec] at hsize
  simp only [Context.keeps, Bool.and_eq_true] at hnode
  cases hreads.of_isLiteral rfl with
  | project hi =>
    cases hwaits with
    | project hwaits hneutral hp hx =>
      have hquotes : Quotes cx v i := hi.quotes (Option.isNone_iff_eq_none.1 hnode.2)
      have hnormal : Normal cx plain σ v i := ⟨hi, hwaits, hlevelled.1.1, hkeeps.2.1⟩
      exact ⟨hneutral, hp, hx, hlevelled.1.2, hquotes, hnormal, by omega⟩

end

end Normal

/-- What is known by induction: the smaller normal forms are evaluated to the values of their
form. -/
def Known (cx : Context) (N : Nat) : Prop :=
  ∀ ⦃plain σ v t⦄, sizeOf t < N → Normal cx plain σ v t → Evals cx σ t

theorem Twins.look (hknown : Known cx N) {θ θ' : Thunk} (h : Twins cx plain N σ θ θ') {k : Nat}
    {u : Value} (hu : force (evaluate cx k) θ = .ok u) :
    ∃ t, Normal cx plain σ u t ∧ sizeOf t < N ∧
      ComesTo (fun K => force (evaluate cx K) θ') (.ok (reflect σ.thunks t)) := by
  obtain ⟨t, u', rfl, hgives, hnormal, hsize⟩ := h
  cases hgives.unique hu
  exact ⟨t, hnormal, hsize, hknown hsize hnormal⟩

/-! ## What waits, waits again -/

theorem decideInt_reflect {v : Value} {t : Term} (h : Quotes cx v t) (ρ : List Thunk) {p : Pattern}
    {accept : Int32 → Bool} {verdict : Option Bool} (hv : decideInt p accept v = .ok verdict) :
    decideInt p accept (reflect ρ t) = .ok verdict := by
  cases h with
  | literal => exact hv
  | array | list | compound | ref | tuple | closure | quote => cases hv
  | var | apply | cond | call | test | command | splice | project => exact hv

theorem partsAt?_rel {R : Thunk → Thunk → Prop} {fs gs : List (String × Thunk)}
    (h : List.Forall₂ (fun e f => e.1 = f.1 ∧ R e.2 f.2) fs gs) :
    ∀ fields : List (String × Pattern),
      Option.Rel (List.Forall₂ R) (partsAt? fs fields) (partsAt? gs fields) := by
  intro fields
  induction fields with
  | nil => exact .some .nil
  | cons field rest hrest =>
    unfold partsAt?
    have hfirst := find?_rel h field.1
    revert hfirst hrest
    cases Keyed.find? field.1 fs <;> cases Keyed.find? field.1 gs <;> intro hrest hfirst <;>
      cases hfirst
    · exact .none
    · next hθ =>
      revert hrest
      cases partsAt? fs rest <;> cases partsAt? gs rest <;> intro hrest <;> cases hrest
      · exact .none
      · next hθs => exact .some (.cons hθ hθs)

theorem Normal.pair? {v : Value} {t : Term} (h : Normal cx true σ v t) (hsize : sizeOf t ≤ N) :
    Option.Rel (fun x y => Twins cx true N σ x.1 y.1 ∧ Twins cx true N σ x.2 y.2) v.pair?
      (reflect σ.thunks t).pair? := by
  have hquotes := h.quotes
  cases hquotes with
  | @tuple θs ty ts hparts =>
    have htwins := h.tuple hsize
    rw [reflect]
    match θs, ts.map (Thunk.delayed σ.thunks 0), htwins with
    | [], [], .nil => exact .none
    | [_], [_], .cons _ .nil => exact .none
    | [_, _], [_, _], .cons hx (.cons hy .nil) => exact .some ⟨hx, hy⟩
    | _ :: _ :: _ :: _, _ :: _ :: _ :: _, .cons _ (.cons _ (.cons _ _)) => exact .none
  | literal | array | list | compound | ref | closure | quote | var | apply | cond | call | test
  | command | splice | project => exact .none

section

variable (hknown : Known cx N) {k : Nat}

include hknown

theorem decideAll_reflect {ps : List Pattern}
    (hps : ∀ p ∈ ps, ∀ {v : Value} {t : Term} {verdict : Option Bool}, Normal cx true σ v t →
      sizeOf t ≤ N → decideMatch (force (evaluate cx k)) p v = .ok verdict →
        ComesTo (fun K => decideMatch (force (evaluate cx K)) p (reflect σ.thunks t))
          (.ok verdict))
    (decided : Bool) {θs θs' : List Thunk} {verdict : Option Bool}
    (hθs : List.Forall₂ (Twins cx true N σ) θs θs')
    (h : decideAll (force (evaluate cx k)) decided ps θs = .ok verdict) :
    ComesTo (fun K => decideAll (force (evaluate cx K)) decided ps θs') (.ok verdict) := by
  induction ps generalizing decided θs θs' with
  | nil => exact ⟨0, fun _ _ => h⟩
  | cons p ps ih =>
    rw [List.forall_mem_cons] at hps
    cases hθs with
    | nil => exact ⟨0, fun _ _ => h⟩
    | cons hθ hθs =>
      unfold decideAll at h ⊢
      obtain ⟨certain, hcertain, h⟩ := Except.bind_ok.1 h
      have hsame : ComesTo (fun _ => Result.ofExcept (irrefutable p)) (.ok certain) :=
        ⟨0, fun _ _ => hcertain⟩
      refine hsame.bind ?_
      cases certain with
      | true => exact ih hps.2 decided hθs h
      | false =>
        obtain ⟨u, hu, h⟩ := Except.bind_ok.1 h
        obtain ⟨answer, hanswer, h⟩ := Except.bind_ok.1 h
        obtain ⟨t, hnormal, hsize, ht⟩ := hθ.look hknown hu
        refine ht.bind ((hps.1 hnormal hsize.le hanswer).bind ?_)
        cases answer with
        | none => exact ih hps.2 false hθs h
        | some b =>
          cases b with
          | false => exact ⟨0, fun _ _ => h⟩
          | true => exact ih hps.2 decided hθs h

theorem decideMatch_reflect (p : Pattern) {v : Value} {t : Term} {verdict : Option Bool}
    (hn : Normal cx true σ v t) (hsize : sizeOf t ≤ N)
    (h : decideMatch (force (evaluate cx k)) p v = .ok verdict) :
    ComesTo (fun K => decideMatch (force (evaluate cx K)) p (reflect σ.thunks t))
      (.ok verdict) := by
  induction p using Pattern.induction generalizing v t verdict with
  | hole => cases h
  | var | wildcard =>
    cases h
    exact .const _
  | int | range => exact ⟨0, fun _ _ => decideInt_reflect hn.quotes _ h⟩
  | tuple info ps ih =>
    have hquotes := hn.quotes
    unfold decideMatch at h ⊢
    cases hquotes with
    | var | apply | cond | call | test | command | splice | project => exact ⟨0, fun _ _ => h⟩
    | tuple hparts =>
      have htwins := hn.tuple hsize
      simp only [Value.isNeutral, reflect, htwins.length_eq, Bool.false_eq_true, if_false] at h ⊢
      split at h
      · next hlen =>
        simp only [hlen, if_true]
        exact decideAll_reflect hknown ih true htwins h
      · cases h
    | literal | array | list | compound | ref | closure | quote => cases h
  | list info ps ih =>
    have hquotes := hn.quotes
    unfold decideMatch at h ⊢
    cases hquotes with
    | var | apply | cond | call | test | command | splice | project => exact ⟨0, fun _ _ => h⟩
    | list hparts =>
      have htwins := hn.list hsize
      simp only [Value.isNeutral, reflect, htwins.length_eq, Bool.false_eq_true, if_false] at h ⊢
      split at h
      · next hlen =>
        simp only [hlen, if_true]
        exact decideAll_reflect hknown ih true htwins h
      · next hlen =>
        simp only [hlen, if_false]
        exact ⟨0, fun _ _ => h⟩
    | literal | array | tuple | compound | ref | closure | quote => cases h
  | compound info fields ih =>
    have hquotes := hn.quotes
    unfold decideMatch at h ⊢
    cases hquotes with
    | var | apply | cond | call | test | command | splice | project => exact ⟨0, fun _ _ => h⟩
    | @compound fs ty ts hparts =>
      have hat := partsAt?_rel (hn.compound hsize) fields
      simp only [Value.isNeutral, reflect, Bool.false_eq_true, if_false, decideFields_eq] at h ⊢
      revert h hat
      cases partsAt? fs fields <;>
        cases partsAt? (ts.map fun f => (f.1, Thunk.delayed σ.thunks 0 f.2)) fields <;>
          intro hat h <;> cases hat
      · cases h
      · next hθs => exact decideAll_reflect hknown (List.forall_mem_map.2 ih) true hθs h
    | literal | array | tuple | list | ref | closure | quote => cases h

/-- A builtin without an answer has none on the normal form of its argument. -/
theorem runNative_reflect {n : Native} {v : Value} {t : Term} (hn : Normal cx true σ v t)
    (hsize : sizeOf t ≤ N) (h : runNative (force (evaluate cx k)) n v = .ok none) :
    ComesTo (fun K => runNative (force (evaluate cx K)) n (reflect σ.thunks t))
      (.ok none) := by
  have hpair := hn.pair? hsize
  unfold runNative at h ⊢
  rw [hn.quotes.seen σ.thunks]
  revert hpair h
  cases v.pair? <;> cases (reflect σ.thunks t).pair? <;> intro h hpair <;> cases hpair
  · cases n <;> exact ⟨0, fun _ _ => h⟩
  · next x y hxy =>
    obtain ⟨x₁, x₂⟩ := x
    obtain ⟨y₁, y₂⟩ := y
    cases n with
    | boolNot => exact ⟨0, fun _ _ => h⟩
    | intAdd | intSub | intMul | intDiv | intMod | intEq | intLt | boolAnd | boolOr =>
      obtain ⟨u₁, hu₁, h⟩ := Except.bind_ok.1 h
      obtain ⟨u₂, hu₂, h⟩ := Except.bind_ok.1 h
      obtain ⟨t₁, hn₁, -, ht₁⟩ := hxy.1.look hknown hu₁
      obtain ⟨t₂, hn₂, -, ht₂⟩ := hxy.2.look hknown hu₂
      refine ht₁.bind (ht₂.bind ?_)
      rw [hn₁.quotes.seen, hn₂.quotes.seen]
      exact ⟨0, fun _ _ => h⟩

/-! ## Normal forms are evaluated to the values of their form -/

omit hknown in
theorem getElem?_of_areFrom {x : Var} : ∀ {n : Nat} {vs : List Var}, Var.areFrom n vs = true →
    x ∈ vs → ∃ i, x.level = n + i ∧ vs[i]? = some x
  | n, v :: vs, h, hx => by
    rw [Var.areFrom, Bool.and_eq_true, beq_iff_eq] at h
    rcases List.mem_cons.1 hx with rfl | hx
    · exact ⟨0, h.1, rfl⟩
    · obtain ⟨i, hi, hvs⟩ := getElem?_of_areFrom h.2 hx
      exact ⟨i + 1, by omega, hvs⟩

omit hknown in
/-- A binder of a stuck value binds its variables to projections. -/
theorem destructure_stuck {look : Thunk → Result Value} {p : Pattern} {θ : Thunk} {v : Value}
    {x : Var} (hp : isStructured p = true) (hx : x ∈ p.binders) (hv : look θ = .ok v)
    (hneutral : v.isNeutral = true) : destructure look p θ = .ok (projections p v) := by
  have hsome : p.binders.isEmpty = false := by
    cases hb : p.binders with
    | nil =>
      rw [hb] at hx
      cases hx
    | cons => rfl
  cases p with
  | tuple | list | compound =>
    unfold destructure
    simp only [hsome, hv, Bool.false_eq_true, if_false]
    change (if v.isNeutral = true then _ else _) = _
    rw [if_pos hneutral]
    rfl
  | int | range | var | wildcard | hole => cases hp

theorem evals_letIn {ty ty' : Ty} {p : Pattern} {i : Term} {x : Var} {v : Value}
    (hquotes : Quotes cx v i) (hi : Normal cx plain σ v i) (hsize : sizeOf i < N)
    (hneutral : v.isNeutral = true) (hp : isStructured p = true) (hx : x ∈ p.binders)
    (hlevels : Var.areFrom σ.vars.length p.binders = true) :
    Evals cx σ (.letIn ty p i (.var ty' x)) := by
  have hreflect : (reflect σ.thunks i).isNeutral = true := by
    rw [hquotes.isNeutral, hneutral]
  have hbinder : ComesTo
      (fun k => destructure (force (evaluate cx k)) p (.delayed σ.thunks 0 i))
      (.ok (projections p (reflect σ.thunks i))) := by
    obtain ⟨n, hn⟩ := hknown hsize hi
    exact ⟨n, fun k hk => destructure_stuck hp hx (hn k hk) hreflect⟩
  refine ComesTo.succ (hbinder.bind (ComesTo.succ ?_))
  obtain ⟨j, hj, hxj⟩ := getElem?_of_areFrom hlevels hx
  have hget : (σ.thunks ++ projections p (reflect σ.thunks i))[x.level]? =
      some (.known (.project p (reflect σ.thunks i) x)) := by
    rw [hj, ← σ.length_eq, List.getElem?_append_right (Nat.le_add_right _ _),
      Nat.add_sub_cancel_left, projections, List.getElem?_map, hxj]
    rfl
  change ComesTo (fun k => evaluateWith cx (evaluate cx k) _ 0 (.var ty' x)) _
  simp only [evaluateWith, hget]
  exact .const _

theorem evals_call {ty : Ty} {name : DefName} {a : Term} {v : Value} (ha : Normal cx true σ v a)
    (hsize : sizeOf a < N) (hstays : Stays cx name v) (hkeeps : cx.unfolds name = false) :
    Evals cx σ (.call ty name a) := by
  refine ComesTo.succ ?_
  change ComesTo (fun k => call cx (evaluate cx k) σ.thunks 0 name a) _
  unfold call
  cases hstays with
  | undefined hnone =>
    rw [hnone]
    exact (hknown hsize ha).bind (.const _)
  | @builtin f native k hf hb hnative hanswer =>
    simp only [hf, hb, hnative, if_true]
    exact (hknown hsize ha).bind ((runNative_reflect hknown ha hsize.le hanswer).bind (.const _))
  | @limit f hf hb =>
    have hlimit : cx.unfoldLimit ≤ 0 := by
      simpa [Context.unfolds, hf, hb] using hkeeps
    simp only [hf, hb, hlimit, Bool.false_eq_true, if_false, if_true]
    exact (hknown hsize ha).bind (.const _)

theorem evals_of_quotes {v : Value} {t : Term} (hquotes : Quotes cx v t)
    (h : Normal cx plain σ v t) (hsize : sizeOf t ≤ N) : Evals cx σ t := by
  cases hquotes with
  | literal | array | list | compound | ref | tuple | closure | quote | command =>
    exact ComesTo.succ (.const _)
  | @var x ty =>
    have hx : σ.vars[x.level]?.all (· == x) = true := h.levelled
    refine ComesTo.succ ?_
    change ComesTo (fun k => evaluateWith cx (evaluate cx k) _ 0 (.var ty x)) _
    simp only [evaluateWith]
    cases hget : σ.vars[x.level]? with
    | none =>
      have habsent : σ.thunks[x.level]? = none := by
        rwa [List.getElem?_eq_none_iff, σ.length_eq, ← List.getElem?_eq_none_iff]
      rw [habsent]
      exact .const _
    | some y =>
      rw [hget] at hx
      obtain rfl : y = x := beq_iff_eq.1 hx
      rw [σ.stands y hget]
      exact .const _
  | @apply f θ ty g a =>
    obtain ⟨hopen, hg, hsize, -⟩ := h.apply hsize
    refine ComesTo.succ ((hknown hsize hg).bind ?_)
    have hstuck := hg.reads.isClosure hopen σ.thunks
    rw [reflect]
    revert hstuck
    cases reflect σ.thunks g with
    | closure =>
      intro hclosure
      cases hclosure
    | literal | array | list | compound | ref | tuple | quote | var | apply | cond | call | test
    | command | splice | project => exact fun _ => .const _
  | cond =>
    obtain ⟨hnone, hquotes, hc, hsize, -, -⟩ := h.cond hsize
    refine ComesTo.succ ((hknown hsize hc).bind ?_)
    rw [hquotes.seen, hnone]
    exact .const _
  | call =>
    obtain ⟨hstays, hkeeps, ha, hsize⟩ := h.call hsize
    exact evals_call hknown ha hsize hstays hkeeps
  | test =>
    obtain ⟨⟨k, hverdict⟩, he, hsize⟩ := h.test hsize
    have hundecided := decideMatch_reflect hknown _ he hsize.le hverdict
    exact ComesTo.succ ((hknown hsize he).bind (hundecided.bind (.const _)))
  | @splice v ty e =>
    obtain ⟨hopen, he, hsize⟩ := h.splice hsize
    refine ComesTo.succ ((hknown hsize he).bind ?_)
    have hstuck := he.reads.isQuote hopen σ.thunks
    rw [reflect]
    revert hstuck
    cases reflect σ.thunks e with
    | quote =>
      intro hquote
      cases hquote
    | literal | array | list | compound | ref | tuple | closure | var | apply | cond | call | test
    | command | splice | project => exact fun _ => .const _
  | project =>
    obtain ⟨hneutral, hp, hx, hlevels, hquotes, hi, hsize⟩ := h.project hsize
    exact evals_letIn hknown hquotes hi hsize hneutral hp hx hlevels

theorem evals_of_known {v : Value} {t : Term} (h : Normal cx plain σ v t)
    (hsize : sizeOf t ≤ N) : Evals cx σ t := by
  cases h.reads with
  | refined => exact ComesTo.succ (.const _)
  | form _ hquotes => exact evals_of_quotes hknown hquotes h hsize

end

/-- Evaluation gives every normal form the value of its form. -/
theorem evaluates_reflect : ∀ N, Known cx N
  | 0 => fun _ _ _ _ h _ => absurd h (Nat.not_lt_zero _)
  | N + 1 => fun _ _ _ _ h hn => evals_of_known (evaluates_reflect N) hn (Nat.le_of_lt_succ h)

end

end Stagecraft.Eval.ByName
