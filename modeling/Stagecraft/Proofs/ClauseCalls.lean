import Stagecraft.Proofs.CallTargets
import Stagecraft.Proofs.SourceTyping

/-!
# Calls of clauses

The clauses of a conditional are helpers, and a conditional is the only one that calls its two
clauses: a helper is counted when it is split off, right before the one call of it is made. So among
the calls of any one function each helper occurs at most once (`CallsOnce`). Helpers have no other
names than functions of the source might have, so names that the source can call are left out of
account here; that locations are distinct keeps those apart.

`Converts` is the logic of conversion that knows the count. Whatever it splits off is a function of
which a property holds, here that its body is typed in the scope of its binder and calls each clause
at most once (`Function.Regular`). So a conditional in it is the only one to call its clauses
(`Function.Regular.clauses_apart`).
-/

/-- A definition checks: a function as such, and the body of an asset where no variable is in
scope. -/
def Stagecraft.Staged.Definition.Checks (table : Table) : Definition → Prop
  | .function f => f.Checks table
  | .resource r => r.body.Checks table []
  | .alias _ => True

namespace Stagecraft.Flat

open Staged (Table Context)
open Emit (CallSite callSites callSitesOfAll callSitesOfFields)

/-! ## Terms within a term -/

/-- A term occurs in a term. The body of a function value and the clauses of a conditional are in
other functions. -/
inductive Term.Within (u : Term) : Term → Prop
  | here : Within u u
  | array {ty kind es e} : e ∈ es → Within u e → Within u (.array ty kind es)
  | list {ty es e} : e ∈ es → Within u e → Within u (.list ty es)
  | compound {ty fields f} : f ∈ fields → Within u f.2 → Within u (.compound ty fields)
  | ref {ty e} : Within u e → Within u (.ref ty e)
  | tuple {ty es e} : e ∈ es → Within u e → Within u (.tuple ty es)
  | condition {ty c a thenName elseName} : Within u c →
      Within u (.branch ty c a thenName elseName)
  | argument {ty c a thenName elseName} : Within u a →
      Within u (.branch ty c a thenName elseName)
  | init {ty p i b} : Within u i → Within u (.letIn ty p i b)
  | body {ty p i b} : Within u b → Within u (.letIn ty p i b)
  | call {ty name a} : Within u a → Within u (.call ty name a)
  | test {ty e p} : Within u e → Within u (.test ty e p)

theorem sublist_callSitesOfAll {ts : List Term} {t : Term} (ht : t ∈ ts) :
    (callSites t).Sublist (callSitesOfAll ts) := by
  induction ts with
  | nil => cases ht
  | cons u ts ih =>
    rw [callSitesOfAll]
    rcases List.mem_cons.1 ht with rfl | ht
    · exact List.sublist_append_left _ _
    · exact (ih ht).trans (List.sublist_append_right _ _)

theorem sublist_callSitesOfFields {fields : List (String × Term)} {f : String × Term}
    (hf : f ∈ fields) : (callSites f.2).Sublist (callSitesOfFields fields) := by
  induction fields with
  | nil => cases hf
  | cons g fields ih =>
    rw [callSitesOfFields]
    rcases List.mem_cons.1 hf with rfl | hf
    · exact List.sublist_append_left _ _
    · exact (ih hf).trans (List.sublist_append_right _ _)

/-- What a part of a term calls, the term calls. -/
theorem Term.Within.sublist_callSites {u t : Term} (h : u.Within t) :
    (callSites u).Sublist (callSites t) := by
  induction h with
  | here => exact List.Sublist.refl _
  | array he _ ih | list he _ ih | tuple he _ ih => exact ih.trans (sublist_callSitesOfAll he)
  | compound hf _ ih => exact ih.trans (sublist_callSitesOfFields hf)
  | ref _ ih | test _ ih => exact ih
  | condition _ ih =>
    exact ih.trans ((List.sublist_append_left _ _).trans
      ((List.sublist_cons_self _ _).trans (List.sublist_cons_self _ _)))
  | argument _ ih =>
    exact ih.trans ((List.sublist_append_right _ _).trans
      ((List.sublist_cons_self _ _).trans (List.sublist_cons_self _ _)))
  | init _ ih => exact ih.trans (List.sublist_append_left _ _)
  | body _ ih => exact ih.trans (List.sublist_append_right _ _)
  | call _ ih => exact ih.trans (List.sublist_cons_self _ _)

section

variable {P : Program} {takes : DefName → Ty → Ty → Prop}

theorem HaveTypes.exists_of_mem {Γ : List Ty} {ts : List Term} {τs : List Ty}
    (h : HaveTypes P takes Γ ts τs) {t : Term} (ht : t ∈ ts) : ∃ τ, HasType P takes Γ t τ := by
  induction ts generalizing τs with
  | nil => cases ht
  | cons u ts ih =>
    cases h with
    | cons hu hts =>
      rcases List.mem_cons.1 ht with rfl | ht
      · exact ⟨_, hu⟩
      · exact ih hts ht

theorem FieldsHaveTypes.exists_of_mem {Γ : List Ty} {fields : List (String × Term)}
    {τs : List (String × Ty)} (h : FieldsHaveTypes P takes Γ fields τs) {f : String × Term}
    (hf : f ∈ fields) : ∃ τ, HasType P takes Γ f.2 τ := by
  induction fields generalizing τs with
  | nil => cases hf
  | cons g fields ih =>
    cases h with
    | cons hg hrest =>
      rcases List.mem_cons.1 hf with rfl | hf
      · exact ⟨_, hg⟩
      · exact ih hrest hf

/-- The argument of a clause is the tuple of the variables in scope. -/
theorem hasType_argument (S : Bindings) :
    HasType P takes S.types S.argument (.tuple S.types) := by
  have hvars : ∀ vars : List (Var × Ty), vars ⊆ S.vars →
      HaveTypes P takes S.types (vars.map fun e => .var e.2 e.1)
        ((vars.map fun e => Term.var e.2 e.1).map Term.ty) := by
    intro vars hsub
    induction vars with
    | nil => exact .nil
    | cons e vars ih =>
      obtain ⟨he, hrest⟩ := List.cons_subset.1 hsub
      exact .cons (.var (Bindings.types_of_mem_vars he)) (ih hrest)
  rw [← S.ty_argument]
  exact .tuple (hvars S.vars (List.Subset.refl _))

/-- A part of a typed term has a type in a scope of its own. -/
theorem Term.Within.exists_hasType {u t : Term} (h : u.Within t) {Γ : List Ty} {τ : Ty}
    (ht : HasType P takes Γ t τ) : ∃ Δ σ, HasType P takes Δ u σ := by
  induction h generalizing Γ τ with
  | here => exact ⟨_, _, ht⟩
  | array he _ ih =>
    cases ht with
    | array hes => exact ih (hes _ he)
  | list he _ ih =>
    cases ht with
    | list hes => exact ih (hes _ he)
  | compound hf _ ih =>
    cases ht with
    | compound _ hfields =>
      obtain ⟨σ, hσ⟩ := hfields.exists_of_mem hf
      exact ih hσ
  | ref _ ih => cases ht
  | tuple he _ ih =>
    cases ht with
    | tuple hes =>
      obtain ⟨σ, hσ⟩ := hes.exists_of_mem he
      exact ih hσ
  | condition _ ih =>
    cases ht with
    | branch hc => exact ih hc
  | argument _ ih =>
    cases ht with
    | branch => exact ih (hasType_argument _)
  | init _ ih =>
    cases ht with
    | letIn _ _ hi => exact ih hi
  | body _ ih =>
    cases ht with
    | letIn _ _ _ hb => exact ih hb
  | call _ ih =>
    cases ht with
    | call _ _ ha => exact ih ha
    | apply ha hf => exact ih (.tuple (.cons ha (.cons hf .nil)))
  | test _ ih =>
    cases ht with
    | test _ he => exact ih he

end

/-! ## Clauses -/

mutual

/-- The names of the clauses of the conditionals in a term. -/
def Term.clauses : Term → List DefName
  | .literal .. | .closure .. | .var .. | .command .. => []
  | .array _ _ es | .list _ es | .tuple _ es => clausesOfAll es
  | .compound _ fields => clausesOfFields fields
  | .ref _ e | .test _ e _ => e.clauses
  | .branch _ c a thenName elseName => thenName :: elseName :: (c.clauses ++ a.clauses)
  | .letIn _ _ init body => init.clauses ++ body.clauses
  | .call _ _ a => a.clauses

/-- The names of the clauses of the conditionals in several terms. -/
def Term.clausesOfAll : List Term → List DefName
  | [] => []
  | t :: ts => t.clauses ++ clausesOfAll ts

/-- The names of the clauses of the conditionals in the fields of a record. -/
def Term.clausesOfFields : List (String × Term) → List DefName
  | [] => []
  | (_, t) :: rest => t.clauses ++ clausesOfFields rest

end

theorem Term.clauses_subset_clausesOfAll {ts : List Term} {t : Term} (ht : t ∈ ts) :
    t.clauses ⊆ clausesOfAll ts := by
  induction ts with
  | nil => cases ht
  | cons u ts ih =>
    rw [clausesOfAll]
    rcases List.mem_cons.1 ht with rfl | ht
    · exact List.subset_append_left _ _
    · exact List.Subset.trans (ih ht) (List.subset_append_right _ _)

theorem Term.clauses_subset_clausesOfFields {fields : List (String × Term)} {f : String × Term}
    (hf : f ∈ fields) : f.2.clauses ⊆ clausesOfFields fields := by
  induction fields with
  | nil => cases hf
  | cons g fields ih =>
    rw [clausesOfFields]
    rcases List.mem_cons.1 hf with rfl | hf
    · exact List.subset_append_left _ _
    · exact List.Subset.trans (ih hf) (List.subset_append_right _ _)

theorem Term.Within.clauses_subset {u t : Term} (h : u.Within t) : u.clauses ⊆ t.clauses := by
  induction h with
  | here => exact List.Subset.refl _
  | array he _ ih | list he _ ih | tuple he _ ih =>
    exact List.Subset.trans ih (clauses_subset_clausesOfAll he)
  | compound hf _ ih => exact List.Subset.trans ih (clauses_subset_clausesOfFields hf)
  | ref _ ih | test _ ih | call _ ih => exact ih
  | condition _ ih =>
    exact fun _ hn => List.mem_cons_of_mem _ (List.mem_cons_of_mem _
      (List.mem_append_left _ (ih hn)))
  | argument _ ih =>
    exact fun _ hn => List.mem_cons_of_mem _ (List.mem_cons_of_mem _
      (List.mem_append_right _ (ih hn)))
  | init _ ih => exact List.Subset.trans ih (List.subset_append_left _ _)
  | body _ ih => exact List.Subset.trans ih (List.subset_append_right _ _)

theorem Term.clauses_argument (S : Bindings) : S.argument.clauses = [] := by
  have hvars : ∀ vars : List (Var × Ty),
      clausesOfAll (vars.map fun e => .var e.2 e.1) = [] := by
    intro vars
    induction vars with
    | nil => rfl
    | cons v vars ih => rw [List.map_cons, clausesOfAll, ih, clauses, List.nil_append]
  rw [Bindings.argument, Term.ofTuple, clauses, hvars]

/-! ## Helpers by their count -/

/-- A name that the source can call: that of the dispatcher or of a function of the table. -/
def SourceName (table : Table) (name : DefName) : Prop :=
  name = dispatcher ∨ (table.function? name).isSome

/-- The clauses and the calls of code that was converted while the count of helpers went from `i` to
`j`: clauses are helpers of the definition, and among the calls every helper of a count in between
occurs at most once, and no other helper does. -/
structure CallsOnce (table : Table) (R : Progress) (owner : DefName) (i j : Nat)
    (clauses : List DefName) (sites : List CallSite) : Prop where
  le : i ≤ j
  helpers : ∀ name ∈ clauses, ∃ f ∈ R.helpers, f.name = name ∧ ∃ n, name = helperName owner n
  count : ∀ n, ¬ SourceName table (helperName owner n) →
    (sites.map (·.name)).count (helperName owner n) ≤ if i ≤ n ∧ n < j then 1 else 0

namespace CallsOnce

variable {table : Table} {R : Progress} {owner : DefName} {i j k : Nat}
  {clauses clauses' : List DefName} {xs ys : List CallSite} {c : CallSite}

theorem nil (h : i ≤ j) : CallsOnce table R owner i j [] [] :=
  ⟨h, List.forall_mem_nil _, fun _ _ => Nat.zero_le _⟩

theorem append (hxs : CallsOnce table R owner i j clauses xs)
    (hys : CallsOnce table R owner j k clauses' ys) :
    CallsOnce table R owner i k (clauses ++ clauses') (xs ++ ys) := by
  refine ⟨hxs.le.trans hys.le, List.forall_mem_append.2 ⟨hxs.helpers, hys.helpers⟩, fun n hn => ?_⟩
  have hle := hxs.le
  have hle' := hys.le
  have hx := hxs.count n hn
  have hy := hys.count n hn
  rw [List.map_append, List.count_append]
  split_ifs at hx hy ⊢ <;> omega

theorem perm (h : CallsOnce table R owner i j clauses xs) (hclauses : clauses' ⊆ clauses)
    (hperm : xs.Perm ys) : CallsOnce table R owner i j clauses' ys :=
  ⟨h.le, fun name hn => h.helpers name (hclauses hn),
    fun n hn => (hperm.map CallSite.name).count_eq (helperName owner n) ▸ h.count n hn⟩

/-- A call of the source is that of no helper. -/
theorem cons_source (hc : SourceName table c.name) (h : CallsOnce table R owner i j clauses xs) :
    CallsOnce table R owner i j clauses (c :: xs) := by
  refine ⟨h.le, h.helpers, fun n hn => ?_⟩
  have hne : c.name ≠ helperName owner n := fun heq => hn (heq ▸ hc)
  rw [List.map_cons, List.count_cons_of_ne hne]
  exact h.count n hn

/-- The next helper is called right after it is split off. -/
theorem cons_helper (hc : c.name = helperName owner k) (hR : ∃ f ∈ R.helpers, f.name = c.name)
    (hk : j ≤ k) (h : CallsOnce table R owner i j clauses xs) :
    CallsOnce table R owner i (k + 1) (c.name :: clauses) (c :: xs) := by
  obtain ⟨f, hf, hname⟩ := hR
  refine ⟨h.le.trans (Nat.le_succ_of_le hk),
    List.forall_mem_cons.2 ⟨⟨f, hf, hname, k, hc⟩, h.helpers⟩, fun n hn => ?_⟩
  have hle := h.le
  have hcount := h.count n hn
  rw [List.map_cons, hc, List.count_cons]
  by_cases hkn : k = n
  · subst hkn
    rw [if_neg fun hlt => absurd hlt.2 (Nat.not_lt_of_le hk)] at hcount
    rw [if_pos (beq_self_eq_true _), if_pos ⟨hle.trans hk, Nat.lt_succ_self k⟩]
    omega
  · have hne : ¬ (helperName owner k == helperName owner n) = true := fun heq =>
      hkn (helperName_count_inj (beq_iff_eq.1 heq))
    rw [if_neg hne]
    split_ifs at hcount ⊢ <;> omega

/-- Clauses that the source cannot call are called at most once. -/
theorem count_le (h : CallsOnce table R owner i j clauses xs) {name : DefName}
    (hmem : name ∈ clauses) (hname : ¬ SourceName table name) :
    (xs.map (·.name)).count name ≤ 1 := by
  obtain ⟨-, -, -, n, rfl⟩ := h.helpers name hmem
  have hcount := h.count n hname
  split_ifs at hcount <;> omega

end CallsOnce

/-! ## Conversion with a count -/

section

variable (R : Progress) (site : Site) (Fine : Function → Prop)

/-- A conversion that has counted `i` helpers before and only adds fine ones to them. What its
result is known to be, if everything it split off is still there in the end, depends on the count
that it leaves. -/
def Converts {α : Type} (i : Nat) (pre : Prop) (x : ConvertM α) (Q : Nat → α → Prop) : Prop :=
  ∀ ⦃p a p'⦄, p.named = i → x.run p = .ok (a, p') → p.Extends p' ∧
    (pre → p'.Extends R → (∀ f ∈ p.helpers, Fine f) → (∀ f ∈ p'.helpers, Fine f) ∧ Q p'.named a)

end

namespace Converts

variable {R : Progress} {site : Site} {Fine : Function → Prop} {α β : Type} {i : Nat} {pre : Prop}

theorem ret {a : α} {Q : Nat → α → Prop} (h : pre → Q i a) :
    Converts R Fine i pre (pure a) Q := by
  rintro p b p' rfl hx
  cases hx
  exact ⟨.refl p, fun hpre _ hp => ⟨hp, h hpre⟩⟩

theorem bind {x : ConvertM α} {f : α → ConvertM β} {Q : Nat → α → Prop} {Q' : Nat → β → Prop}
    (hx : Converts R Fine i pre x Q)
    (hf : ∀ a j, Converts R Fine j (pre ∧ Q j a) (f a) Q') :
    Converts R Fine i pre (x >>= f) Q' := by
  intro p b p'' hi h
  rw [StateT.run_bind, Except.bind_ok] at h
  obtain ⟨⟨a, p'⟩, ha, hb⟩ := h
  obtain ⟨hpp', hQ⟩ := hx hi ha
  obtain ⟨hpp'', hQ'⟩ := hf a p'.named rfl hb
  refine ⟨hpp'.trans hpp'', fun hpre hR hp => ?_⟩
  obtain ⟨hp', hQa⟩ := hQ hpre (hpp''.trans hR) hp
  exact hQ' ⟨hpre, hQa⟩ hR hp'

/-- An answer that splits off nothing. -/
theorem lift {e : Except Error α} {f : α → ConvertM β} {Q : Nat → β → Prop}
    (hf : ∀ a, e = .ok a → Converts R Fine i pre (f a) Q) :
    Converts R Fine i pre (liftM e >>= f) Q := by
  intro p b p' hi h
  cases e with
  | error _ => cases h
  | ok a => exact hf a rfl hi h

theorem throw {e : Error} {Q : Nat → α → Prop} : Converts R Fine i pre (throw e) Q :=
  fun _ _ _ _ h => nomatch h

/-- What is known of the result without the count is known with it. -/
theorem and {P : Program} (hP : P.Has site R) {x : ConvertM α} {Q : Nat → α → Prop} {Q' : α → Prop}
    (h : Converts R Fine i pre x Q) (h' : Splits P site x Q') :
    Converts R Fine i pre x fun j a => Q j a ∧ Q' a := by
  intro p a p' hi hx
  obtain ⟨hpp', hQ⟩ := h hi hx
  refine ⟨hpp', fun hpre hR hp => ?_⟩
  obtain ⟨hp', ha⟩ := hQ hpre hR hp
  exact ⟨hp', ha, (h' hx).2 (hP.of_extends hR)⟩

theorem addClause {scope : Bindings} {result : Ty} {body : Term} {restore : Option Int32}
    (h : pre → ∀ name, Fine ⟨[], name, scope.binder, result, body, restore⟩) :
    Converts R Fine i pre (addClause site scope result body restore) fun j name =>
      j = i + 1 ∧ name = helperName site.name i ∧ ∃ f ∈ R.helpers, f.name = name := by
  rintro p name p' rfl hx
  cases hx
  refine ⟨⟨List.prefix_append _ _, List.prefix_refl _⟩, fun hpre hR hp => ⟨?_, rfl, rfl, ?_⟩⟩
  · exact List.forall_mem_append.2 ⟨hp, List.forall_mem_singleton.2 (h hpre _)⟩
  · exact ⟨_, hR.helpers.subset (List.mem_append_right _ List.mem_cons_self), rfl⟩

theorem addClosure {binder : Pattern} {result : Ty} {body : Term}
    (h : pre → ∀ name restore, Fine ⟨[], name, binder, result, body, restore⟩) :
    Converts R Fine i pre (addClosure site binder result body) fun j _ => j = i + 1 := by
  rintro p tag p' rfl hx
  cases hx
  refine ⟨⟨List.prefix_append _ _, List.prefix_append _ _⟩, fun hpre _ hp => ⟨?_, rfl⟩⟩
  exact List.forall_mem_append.2 ⟨hp, List.forall_mem_singleton.2 (h hpre _ _)⟩

end Converts

/-! ## Regular functions -/

/-- The body of a function is typed in the scope of the binder, and calls each helper of the
definition that the function belongs to at most once. -/
def Function.Regular (table : Table) (P : Program) (R : Progress) (owner : DefName)
    (f : Function) : Prop :=
  HasType P (Takes table) f.binder.types f.body f.result ∧
    ∃ i j, CallsOnce table R owner i j f.body.clauses (callSites f.body)

section

variable {table : Table} {P : Program} {R : Progress} {owner : DefName}
  (hdispatcher : table.function? dispatcher = none) {Γ : Context} {S : Bindings} {i j : Nat}

include hdispatcher

/-- A clause of a conditional takes the scope of the conditional. -/
theorem regular_clause {t : Staged.Term} {t' : Term} {u : Staged.Ty} {τ : Ty}
    (hflat : Flattened table P S t t') (hc : t.Checks table Γ) (hS : Tracks table Γ S)
    (hu : t.ty.Agrees table u) (hτ : Ty.ofStaged table u = .ok τ)
    (hcalls : CallsOnce table R owner i j t'.clauses (callSites t')) (name : DefName)
    (restore : Option Int32) :
    Function.Regular table P R owner ⟨[], name, S.binder, τ, t', restore⟩ := by
  refine ⟨?_, i, j, hcalls⟩
  have htype := hasType_of_flattened hdispatcher hflat hc hS
  rw [eq_of_agrees hu hflat.ty hτ, ← S.types_binder] at htype
  exact htype

/-- The body of a local function takes its parameter and the captured variables. -/
theorem regular_body {t : Staged.Ty} {p : Staged.Pattern} {p' : Pattern} {inner : Bindings}
    {captures : List Capture} {b : Staged.Term} {b' : Term} {σ τ : Ty}
    (ht : t.Agrees table (.function p.ty b.ty)) (hτ : Ty.ofStaged table t = .ok (.function σ τ))
    (hp : Mirrors table .empty p p' inner)
    (hcaptures : capturesOf S (Staged.Term.lambda t p b).freeNames.names = .ok captures)
    (hb : Flattened table P (bindCaptures inner captures).2 b b') (hc : b.Checks table (Γ.bind p))
    (hS : Tracks table Γ S)
    (hcalls : CallsOnce table R owner i j b'.clauses (callSites b')) (name : DefName)
    (restore : Option Int32) : Function.Regular table P R owner
      ⟨[], name, .ofTuple [p', (bindCaptures inner captures).1], τ, b', restore⟩ := by
  refine ⟨?_, i, j, hcalls⟩
  have htype := hasType_of_flattened hdispatcher hb hc (hS.closure hcaptures hp)
  obtain ⟨_, _, heq, -, hρ⟩ := exists_of_ofStaged_function (ht ▸ hτ)
  cases heq
  obtain rfl : _ = _ := Except.ok.inj (hρ.symm.trans hb.ty)
  have hbinder : (closureBinder p' captures).types = p'.types ++ captures.map (·.ty) := by
    simp [closureBinder, Pattern.ofTuple, Pattern.types, Pattern.typesOfAll,
      typesOfFields_captureFields]
  rw [types_bindCaptures, hp.types] at htype
  rw [hp.closureBinder_eq]
  exact hbinder ▸ htype

end

section

variable {table : Table} {P : Program} {R : Progress} {site : Site}

mutual

/-- A term that checks is converted to one that calls each helper at most once, and everything split
off on the way is regular. -/
theorem converts_term (hP : P.Has site R) (hdispatcher : table.function? dispatcher = none)
    {pre : Prop} :
    ∀ (t : Staged.Term) {Γ : Context} {S : Bindings} (i : Nat), t.Checks table Γ →
      Tracks table Γ S → Converts R (Function.Regular table P R site.name) i pre
        (Term.ofStaged table site S t) fun j t' =>
          CallsOnce table R site.name i j t'.clauses (callSites t')
  | .literal t l, Γ, S, i, _, _ => by
    unfold Term.ofStaged
    exact .lift fun τ hτ => .ret fun _ => .nil le_rfl
  | .array t kind es, Γ, S, i, h, hS => by
    unfold Term.ofStaged
    refine .lift fun τ hτ => (converts_terms hP hdispatcher es i h.2.2 hS).bind fun es' j => .ret ?_
    exact fun hpre => hpre.2
  | .list t es, Γ, S, i, h, hS => by
    unfold Term.ofStaged
    refine .lift fun τ hτ => (converts_terms hP hdispatcher es i h.2 hS).bind fun es' j => .ret ?_
    exact fun hpre => hpre.2
  | .compound t fields, Γ, S, i, h, hS => by
    unfold Term.ofStaged
    refine .lift fun τ hτ =>
      (converts_fields hP hdispatcher fields i h.2.2 hS).bind fun fields' j => .ret ?_
    exact fun hpre => hpre.2
  | .tuple t es, Γ, S, i, h, hS => by
    unfold Term.ofStaged
    refine .lift fun τ hτ => (converts_terms hP hdispatcher es i h.2 hS).bind fun es' j => .ret ?_
    exact fun hpre => hpre.2
  | .lambda t p b, Γ, S, i, ⟨ht, _, _, hb⟩, hS => by
    unfold Term.ofStaged
    refine .lift fun ty hty => .lift fun captures hcaptures => ?_
    split
    · next σ τ =>
      refine .lift fun ⟨p', inner⟩ hp => ?_
      replace hp := mirrors_ofStaged hp
      refine ((converts_term hP hdispatcher b i hb (hS.closure hcaptures hp)).and hP
        (flattened_ofStaged b _)).bind fun b' j => ?_
      refine (Converts.addClosure fun hpre name restore => ?_).bind fun tag k => .ret ?_
      · exact regular_body hdispatcher ht hty hp hcaptures hpre.2.2 hb hS hpre.2.1 name restore
      · rintro ⟨⟨_, hcalls, _⟩, rfl⟩
        exact .nil (Nat.le_succ_of_le hcalls.le)
    · exact .throw
  | .apply t f a, Γ, S, i, h, hS => by
    unfold Term.ofStaged
    refine .lift fun τ hτ => (converts_term hP hdispatcher f i h.2.1 hS).bind fun f' j => ?_
    refine (converts_term hP hdispatcher a j h.2.2 hS).bind fun a' k => .ret ?_
    rintro ⟨⟨_, hf⟩, ha⟩
    -- the argument stands before the operator, which is converted first
    have hsites : callSites (Term.ofTuple [a', f']) = callSites a' ++ callSites f' := by
      simp only [Term.ofTuple, callSites, callSitesOfAll, List.append_nil]
    have hclauses : (Term.ofTuple [a', f']).clauses ⊆ f'.clauses ++ a'.clauses := by
      simp only [Term.ofTuple, Term.clauses, Term.clausesOfAll, List.append_nil]
      exact List.perm_append_comm.subset
    rw [callSites, hsites, Term.clauses]
    exact ((hf.append ha).perm hclauses List.perm_append_comm).cons_source (.inl rfl)
  | .cond t c a b, Γ, S, i, ⟨_, hat, hbt, hcc, hac, hbc⟩, hS => by
    unfold Term.ofStaged
    refine .lift fun τ hτ => .lift fun _ _ => .lift fun _ _ => ?_
    refine (converts_term hP hdispatcher c i hcc hS).bind fun c' j => ?_
    refine ((converts_term hP hdispatcher a j hac hS).and hP
      (flattened_ofStaged a S)).bind fun a' k => ?_
    refine (Converts.addClause fun hpre name => ?_).bind fun thenName l => ?_
    · exact regular_clause hdispatcher hpre.2.2 hac hS hat hτ hpre.2.1 name (some 1)
    refine ((converts_term hP hdispatcher b l hbc hS).and hP
      (flattened_ofStaged b S)).bind fun b' m => ?_
    refine (Converts.addClause fun hpre name => ?_).bind fun elseName n => .ret ?_
    · exact regular_clause hdispatcher hpre.2.2 hbc hS hbt hτ hpre.2.1 name none
    rintro ⟨⟨⟨⟨⟨_, hc⟩, ha, _⟩, rfl, hthen, hthen'⟩, hb, _⟩, rfl, helse, helse'⟩
    rw [callSites, callSites_argument, List.append_nil, Term.clauses, Term.clauses_argument,
      List.append_nil]
    refine CallsOnce.perm (((hc.cons_helper hthen hthen' ha.le).cons_helper helse helse' hb.le))
      (List.Perm.swap ..).subset (.swap ..)
  | .letIn t p init b, Γ, S, i, ⟨_, _, _, _, hi, hb⟩, hS => by
    unfold Term.ofStaged
    refine .lift fun τ hτ => (converts_term hP hdispatcher init i hi hS).bind fun init' j => ?_
    refine .lift fun ⟨p', inner⟩ hp => ?_
    have hinner := (mirrors_ofStaged hp).tracks hS
    refine (converts_term hP hdispatcher b j hb hinner).bind fun b' k => .ret ?_
    rintro ⟨⟨_, hinit⟩, hbody⟩
    exact hinit.append hbody
  | .var t v, Γ, S, i, _, _ => by
    unfold Term.ofStaged
    exact .lift fun τ hτ => .lift fun v' hv => .ret fun _ => .nil le_rfl
  | .call t name a, Γ, S, i, ⟨f, hf, _, _, ha⟩, hS => by
    unfold Term.ofStaged
    refine .lift fun τ hτ => ?_
    split
    · exact .throw
    · refine (converts_term hP hdispatcher a i ha hS).bind fun a' j => .ret fun hpre => ?_
      exact hpre.2.cons_source (.inr (Option.isSome_iff_exists.2 ⟨f, hf⟩))
  | .test t e p, Γ, S, i, h, hS => by
    unfold Term.ofStaged
    refine .lift fun τ hτ => (converts_term hP hdispatcher e i h.2.2.2 hS).bind fun e' j => ?_
    refine .lift fun ⟨p', inner⟩ hp => .ret fun hpre => ?_
    exact hpre.2
  | .command t line, Γ, S, i, _, _ => by
    unfold Term.ofStaged
    exact .lift fun τ hτ => .ret fun _ => .nil le_rfl
  | .quote .., Γ, S, i, _, _ => by
    unfold Term.ofStaged
    exact .lift fun _ _ => .throw
  | .splice .., Γ, S, i, _, _ => by
    unfold Term.ofStaged
    exact .lift fun _ _ => .throw
  | .hole .., Γ, S, i, _, _ => by
    unfold Term.ofStaged
    exact .lift fun _ _ => .throw

theorem converts_terms (hP : P.Has site R) (hdispatcher : table.function? dispatcher = none)
    {pre : Prop} :
    ∀ (ts : List Staged.Term) {Γ : Context} {S : Bindings} (i : Nat),
      Staged.Term.AllCheck table Γ ts → Tracks table Γ S →
      Converts R (Function.Regular table P R site.name) i pre
        (Term.ofStagedAll table site S ts) fun j ts' =>
          CallsOnce table R site.name i j (Term.clausesOfAll ts') (callSitesOfAll ts')
  | [], Γ, S, i, _, _ => by
    unfold Term.ofStagedAll
    exact .ret fun _ => .nil le_rfl
  | t :: ts, Γ, S, i, h, hS => by
    unfold Term.ofStagedAll
    refine (converts_term hP hdispatcher t i h.1 hS).bind fun t' j => ?_
    refine (converts_terms hP hdispatcher ts j h.2 hS).bind fun ts' k => .ret ?_
    rintro ⟨⟨_, ht⟩, hts⟩
    exact ht.append hts

theorem converts_fields (hP : P.Has site R) (hdispatcher : table.function? dispatcher = none)
    {pre : Prop} :
    ∀ (fields : List (String × Staged.Term)) {Γ : Context} {S : Bindings} (i : Nat),
      Staged.Term.FieldsCheck table Γ fields → Tracks table Γ S →
      Converts R (Function.Regular table P R site.name) i pre
        (Term.ofStagedFields table site S fields) fun j fields' =>
          CallsOnce table R site.name i j (Term.clausesOfFields fields') (callSitesOfFields fields')
  | [], Γ, S, i, _, _ => by
    unfold Term.ofStagedFields
    exact .ret fun _ => .nil le_rfl
  | (key, t) :: rest, Γ, S, i, h, hS => by
    unfold Term.ofStagedFields
    refine (converts_term hP hdispatcher t i h.1 hS).bind fun t' j => ?_
    refine (converts_fields hP hdispatcher rest j h.2 hS).bind fun rest' k => .ret ?_
    rintro ⟨⟨_, ht⟩, hrest⟩
    exact ht.append hrest

end

/-- A definition that checks is converted to regular functions. -/
theorem converts_definition (hP : P.Has site R)
    (hdispatcher : table.function? dispatcher = none) {pre : Prop} (d : Staged.Definition)
    (h : d.Checks table) :
    Converts R (Function.Regular table P R site.name) 0 pre (Definition.ofStaged table site d)
      fun _ own => ∀ f, .function f ∈ own → Function.Regular table P R site.name f := by
  rcases d with r | f | _
  · unfold Definition.ofStaged
    refine (converts_term hP hdispatcher r.body 0 h .empty).bind fun body j =>
      .lift fun marks _ => .ret fun _ f hf => ?_
    cases List.mem_singleton.1 hf
  · unfold Definition.ofStaged Definition.ofStagedFunction
    simp only [bind_assoc]
    refine .lift fun marks _ => ?_
    split
    · simp only [bind_assoc, pure_bind]
      refine .lift fun param _ => .lift fun result _ => .ret fun _ f hf => ?_
      cases List.mem_singleton.1 hf
    · simp only [bind_assoc, pure_bind]
      refine .lift fun ⟨binder, scope⟩ hbinder => ?_
      replace hbinder := mirrors_ofStaged hbinder
      have hS := hbinder.tracks .empty
      refine ((converts_term hP hdispatcher f.body 0 h.body hS).and hP
        (flattened_ofStaged f.body scope)).bind fun body j => ?_
      refine .lift fun result hresult => .ret ?_
      rintro ⟨_, hcalls, hflat⟩ g hg
      cases List.mem_singleton.1 hg
      refine ⟨?_, 0, j, hcalls⟩
      have htype := hasType_of_flattened hdispatcher hflat h.body hS
      have hscope : scope.types = binder.types := hbinder.types
      rwa [hscope, eq_of_agrees h.result hflat.ty hresult] at htype
  · unfold Definition.ofStaged
    exact .ret fun _ _ hf => nomatch hf

/-- A conditional is the only one to call its clauses, and calls each of them once. -/
theorem Function.Regular.clauses_apart {owner : DefName} {f : Function}
    (h : f.Regular table P R owner) (hapart : ∀ g ∈ R.helpers, ¬ SourceName table g.name)
    {τ : Ty} {c a : Term} {thenName elseName : DefName}
    (hbranch : (Term.branch τ c a thenName elseName).Within f.body) :
    thenName ≠ elseName ∧ ∀ s ∈ callSites c, s.name ≠ thenName ∧ s.name ≠ elseName := by
  obtain ⟨-, i, j, hcalls⟩ := h
  have hcount : ∀ name ∈ (Term.branch τ c a thenName elseName).clauses,
      ((callSites (.branch τ c a thenName elseName)).map (·.name)).count name ≤ 1 := by
    intro name hn
    have hmem := hbranch.clauses_subset hn
    obtain ⟨g, hg, rfl, -⟩ := hcalls.helpers name hmem
    exact ((hbranch.sublist_callSites.map _).count_le _).trans
      (hcalls.count_le hmem (hapart g hg))
  have hthen := hcount thenName (by rw [Term.clauses]; exact List.mem_cons_self)
  have helse := hcount elseName
    (by rw [Term.clauses]; exact List.mem_cons_of_mem _ List.mem_cons_self)
  simp only [callSites, List.map_cons, List.map_append, List.count_cons, List.count_append,
    beq_self_eq_true, if_true] at hthen helse
  have hzero : ∀ name, ((callSites c).map (·.name)).count name = 0 →
      ∀ s ∈ callSites c, s.name ≠ name := fun name h0 s hs heq =>
    List.count_eq_zero.1 h0 (heq ▸ List.mem_map_of_mem hs)
  refine ⟨fun heq => ?_, fun s hs => ⟨hzero _ (by omega) s hs, hzero _ (by omega) s hs⟩⟩
  rw [heq, beq_self_eq_true, if_pos rfl] at hthen
  omega

end

/-! ## Regular programs -/

section

open Pipeline (flatten)

variable {table : Table}

/-- A function is converted to a definition of its name. -/
theorem name_mem_of_run {g : Staged.Function} {site : Site} {own : List Definition}
    {progress : Progress}
    (h : (Definition.ofStaged table site (.function g)).run ⟨0, [], []⟩ = .ok (own, progress)) :
    g.name ∈ own.map Definition.name := by
  unfold Definition.ofStaged at h
  rw [StateT.run_bind, Except.bind_ok] at h
  obtain ⟨⟨d, progress'⟩, hd, h⟩ := h
  cases h
  have hname := (registers_ofStagedFunction g (List.Subset.refl _) hd).2 trivial
    (.refl _) ⟨Progress.numbered_empty _, fun f hf => nomatch hf⟩
  exact hname.2.1 ▸ List.mem_cons_self

theorem name_mem_of_flatten {ds : List Staged.Definition} {closures closures' : ClosureTable}
    {flat : List Definition} (h : flatten table closures ds = (flat, closures', []))
    {g : Staged.Function} (hg : .function g ∈ ds) : g.name ∈ flat.map Definition.name := by
  obtain ⟨before, own, after, hconv, hown, -⟩ := (convert_of_flatten h).2 _ hg
  unfold convert at hconv
  rw [Except.bind_ok] at hconv
  obtain ⟨⟨own, progress⟩, hrun, hconv⟩ := hconv
  cases hconv
  obtain ⟨e, he, hname⟩ := List.mem_map.1 (name_mem_of_run hrun)
  exact hname ▸ List.mem_map_of_mem (hown (List.mem_append_left _ he))

/-- Where every definition is converted, each flat definition comes from one of the conversions.
What that gave is in the result, and the functions it split off are not what the functions
themselves are converted to. -/
theorem exists_run_of_mem : ∀ {ds : List Staged.Definition} {closures closures' : ClosureTable}
    {flat : List Definition}, flatten table closures ds = (flat, closures', []) →
      ∀ e ∈ flat, ∃ d ∈ ds, ∃ before own progress others,
        (Definition.ofStaged table ⟨d.name, ClosureTable.size before⟩ d).run ⟨0, [], []⟩ =
          .ok (own, progress) ∧
        e ∈ own ++ progress.helpers.map .function ∧ own ⊆ others ∧
        flat.Perm (others ++ progress.helpers.map .function) ∧
        (∀ g, .function g ∈ ds → g.name ∈ others.map Definition.name) ∧
        (before.append progress.closures).bodies <+: closures'.bodies
  | [], closures, closures', flat, h, e, he => by
    cases h
    cases he
  | d :: ds, closures, closures', flat, h, e, he => by
    unfold flatten at h
    cases hd : convert table closures d with
    | error err => simp [hd] at h
    | ok r =>
      obtain ⟨first, after⟩ := r
      cases hds : flatten table after ds with
      | mk rest r =>
        obtain ⟨closures'', failures⟩ := r
        simp only [hd, hds, Prod.mk.injEq] at h
        obtain ⟨rfl, rfl, rfl⟩ := h
        unfold convert at hd
        rw [Except.bind_ok] at hd
        obtain ⟨⟨own, progress⟩, hrun, hd⟩ := hd
        cases hd
        have hnames : ∀ g, .function g ∈ d :: ds →
            g.name ∈ own.map Definition.name ∨ g.name ∈ rest.map Definition.name := by
          intro g hg
          rcases List.mem_cons.1 hg with rfl | hg
          · exact .inl (name_mem_of_run hrun)
          · exact .inr (name_mem_of_flatten hds hg)
        rcases List.mem_append.1 he with he | he
        · refine ⟨d, List.mem_cons_self, closures, own, progress, own ++ rest, hrun, he,
            List.subset_append_left _ _, ?_, ?_, (convert_of_flatten hds).1⟩
          · rw [List.append_assoc, List.append_assoc]
            exact List.perm_append_comm.append_left _
          · intro g hg
            rw [List.map_append]
            exact List.mem_append.2 (hnames g hg)
        · obtain ⟨d', hd', before, own', progress', others, hrun', hmem, hown, hperm, hfunctions,
            hpre⟩ := exists_run_of_mem hds e he
          refine ⟨d', List.mem_cons_of_mem _ hd', before, own', progress',
            own ++ progress.helpers.map .function ++ others, hrun', hmem,
            List.Subset.trans hown (List.subset_append_right _ _), ?_, ?_, hpre⟩
          · rw [List.append_assoc _ others]
            exact hperm.append_left _
          · intro g hg
            simp only [List.map_append, List.mem_append]
            rcases List.mem_cons.1 hg with rfl | hg
            · exact .inl (.inl (name_mem_of_run hrun))
            · exact .inr (hfunctions g hg)

/-- A table all of whose definitions check and are converted, to definitions of distinct names,
makes a program of regular functions. -/
theorem exists_regular {flat : List Definition} {closures : ClosureTable}
    (h : flatten table .empty table.definitions = (flat, closures, []))
    (hnames : (flat.map Definition.name).Nodup) (natives : Eval.Natives)
    (hdispatcher : table.function? dispatcher = none)
    (hchecks : ∀ d ∈ table.definitions, d.Checks table) {f : Function} (hf : .function f ∈ flat) :
    ∃ R owner, Function.Regular table ⟨flat, closures, natives⟩ R owner f ∧
      ∀ g ∈ R.helpers, .function g ∈ flat ∧ table.function? g.name = none := by
  obtain ⟨d, hd, before, own, R, others, hrun, hmem, hown, hperm, hfunctions, hbodies⟩ :=
    exists_run_of_mem h _ hf
  have hsub : own ++ R.helpers.map .function ⊆ flat := fun e he =>
    hperm.symm.subset ((List.append_subset.2 ⟨List.subset_append_of_subset_left _ hown,
      List.subset_append_right _ _⟩) he)
  have hhas : Program.Has ⟨flat, closures, natives⟩ ⟨d.name, before.size⟩ R :=
    Program.has_of_convert hnames hsub hbodies
  obtain ⟨hhelpers, hds⟩ := ((converts_definition hhas hdispatcher d (hchecks d hd)) rfl hrun).2
    trivial (.refl R) fun _ h => nomatch h
  refine ⟨R, d.name, ?_, fun g hg => ⟨?_, ?_⟩⟩
  · rcases List.mem_append.1 hmem with hmem | hmem
    · exact hds f hmem
    · obtain ⟨g, hg, heq⟩ := List.mem_map.1 hmem
      cases heq
      exact hhelpers f hg
  · exact hsub (List.mem_append_right _ (List.mem_map_of_mem hg))
  · -- a function of that name would have been converted to another definition of it
    rw [(hperm.map _).nodup_iff, List.map_append, List.nodup_append] at hnames
    refine Option.eq_none_iff_forall_ne_some.2 fun g' hg' => ?_
    obtain ⟨hg', hname⟩ := Staged.Table.mem_of_function? hg'
    exact hnames.2.2 _ (hfunctions g' hg') _
      (List.mem_map_of_mem (List.mem_map_of_mem (f := Definition.function) hg)) hname

end

end Stagecraft.Flat
