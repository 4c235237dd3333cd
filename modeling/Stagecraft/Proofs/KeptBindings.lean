import Stagecraft.Proofs.SlotCounts

/-!
# Bindings that keep their slots

The mark that keeps slots works on the binder of a function, whose frame is then expected under the
result. On the binder of a let it makes any function that is emitted without it a defect, unless
there is no slot to keep (`isDefect_of_kept`). Where a marked binder has no variables, the mark
changes nothing (`function_eq_of_marks`).
-/

namespace Stagecraft.Flat

/-- A pattern without the marks on it. -/
def Pattern.unmarked : Pattern → Pattern
  | .int info n => .int ⟨[], info.ty⟩ n
  | .range info min max => .range ⟨[], info.ty⟩ min max
  | .list info ps => .list ⟨[], info.ty⟩ ps
  | .compound info fields => .compound ⟨[], info.ty⟩ fields
  | .tuple info ps => .tuple ⟨[], info.ty⟩ ps
  | .var info v => .var ⟨[], info.ty⟩ v
  | .wildcard info => .wildcard ⟨[], info.ty⟩

@[simp] theorem Pattern.ty_unmarked (p : Pattern) : p.unmarked.ty = p.ty := by cases p <;> rfl

namespace Term

mutual

/-- A term without the marks on the binders of its lets. -/
def unmarked : Term → Term
  | .literal ty l => .literal ty l
  | .array ty kind es => .array ty kind (unmarkedAll es)
  | .list ty es => .list ty (unmarkedAll es)
  | .compound ty fields => .compound ty (unmarkedFields fields)
  | .ref ty e => .ref ty e.unmarked
  | .tuple ty es => .tuple ty (unmarkedAll es)
  | .closure ty tag captures => .closure ty tag captures
  | .branch ty c a thenName elseName => .branch ty c.unmarked a.unmarked thenName elseName
  | .letIn ty p i b => .letIn ty p.unmarked i.unmarked b.unmarked
  | .var ty v => .var ty v
  | .call ty name a => .call ty name a.unmarked
  | .test ty e p => .test ty e.unmarked p
  | .command ty line => .command ty line

/-- Several terms without the marks on the binders of their lets. -/
def unmarkedAll : List Term → List Term
  | [] => []
  | t :: ts => t.unmarked :: unmarkedAll ts

/-- The fields of a record without the marks on the binders of their lets. -/
def unmarkedFields : List (String × Term) → List (String × Term)
  | [] => []
  | (key, t) :: rest => (key, t.unmarked) :: unmarkedFields rest

end

@[simp] theorem ty_unmarked (t : Term) : t.unmarked.ty = t.ty := by
  cases t <;> rfl

theorem unmarkedAll_eq_map (ts : List Term) : unmarkedAll ts = ts.map unmarked := by
  induction ts with
  | nil => rfl
  | cons t ts ih => rw [unmarkedAll, ih, List.map_cons]

end Term

end Stagecraft.Flat

namespace Stagecraft.Emit

open Target (StackKind)
open Flat (Ty Pattern Term)

@[simp] theorem patternKindsAgree_unmarked (p : Pattern) :
    patternKindsAgree p.unmarked = patternKindsAgree p := by
  cases p <;> rfl

@[simp] theorem bindable_unmarked (p : Pattern) : bindable p.unmarked = bindable p := by
  cases p <;> rfl

theorem bind_unmarked (options : Options) (p : Pattern) :
    bind options p.unmarked = bind options p := by
  cases p <;> rfl

theorem scopedBind_unmarked (p : Pattern) : Scoped.bind [] p.unmarked = Scoped.bind [] p := by
  cases p <;> rfl

@[simp] theorem constant?_unmarked (kind : ArrayKind) (t : Term) :
    constant? kind t.unmarked = constant? kind t := by
  cases t <;> rfl

theorem arrayShell_unmarked (kind : ArrayKind) (es : List Term) :
    arrayShell kind (Term.unmarkedAll es) = arrayShell kind es := by
  rw [Term.unmarkedAll_eq_map]
  cases kind <;> simp only [arrayShell, List.map_map, Function.comp_def, constant?_unmarked]

mutual

/-- There is code for everything in a term, whatever the marks. -/
theorem emittable_unmarked : ∀ t : Term, emittable t.unmarked ↔ emittable t
  | .literal .. | .closure .. | .var .. | .command .. | .ref .. => Iff.rfl
  | .array ty kind es => and_congr Iff.rfl (elementsEmittable_unmarked kind es)
  | .list ty es => itemsEmittable_unmarked es
  | .compound ty fields => fieldsEmittable_unmarked fields
  | .tuple ty es => allEmittable_unmarked es
  | .branch ty c a thenName elseName => and_congr (emittable_unmarked c) (emittable_unmarked a)
  | .letIn ty p i b => by
    rw [Term.unmarked, emittable, emittable, emittable_unmarked i, emittable_unmarked b,
      bindable_unmarked]
  | .call ty name a => emittable_unmarked a
  | .test ty e p => and_congr (emittable_unmarked e) Iff.rfl

theorem allEmittable_unmarked : ∀ ts : List Term,
    allEmittable (Term.unmarkedAll ts) ↔ allEmittable ts
  | [] => Iff.rfl
  | t :: ts => and_congr (emittable_unmarked t) (allEmittable_unmarked ts)

theorem elementsEmittable_unmarked (kind : ArrayKind) : ∀ ts : List Term,
    elementsEmittable kind (Term.unmarkedAll ts) ↔ elementsEmittable kind ts
  | [] => Iff.rfl
  | t :: ts => by
    rw [Term.unmarkedAll, elementsEmittable, elementsEmittable, constant?_unmarked,
      Term.ty_unmarked, emittable_unmarked t, elementsEmittable_unmarked kind ts]

theorem itemsEmittable_unmarked : ∀ ts : List Term,
    itemsEmittable (Term.unmarkedAll ts) ↔ itemsEmittable ts
  | [] => Iff.rfl
  | t :: ts => by
    rw [Term.unmarkedAll, itemsEmittable, itemsEmittable, Term.ty_unmarked, emittable_unmarked t,
      itemsEmittable_unmarked ts]

theorem fieldsEmittable_unmarked : ∀ fields : List (String × Term),
    fieldsEmittable (Term.unmarkedFields fields) ↔ fieldsEmittable fields
  | [] => Iff.rfl
  | (key, t) :: rest => by
    rw [Term.unmarkedFields, fieldsEmittable, fieldsEmittable, Term.ty_unmarked,
      emittable_unmarked t, fieldsEmittable_unmarked rest]

end

mutual

/-- The kinds in a term agree whatever the marks. -/
theorem kindsAgree_unmarked : ∀ (t : Term) (Γ : List (Nat × List StackKind)),
    kindsAgree Γ t.unmarked = kindsAgree Γ t
  | .literal .., Γ | .closure .., Γ | .var .., Γ | .command .., Γ => rfl
  | .array ty kind es, Γ => by
    rw [Term.unmarked, kindsAgree, kindsAgree, allKindsAgree_unmarked es]
  | .list ty es, Γ => by
    rw [Term.unmarked, kindsAgree, kindsAgree, allKindsAgree_unmarked es]
  | .compound ty fields, Γ => by
    rw [Term.unmarked, kindsAgree, kindsAgree, fieldKindsAgree_unmarked fields]
  | .ref ty e, Γ => by
    rw [Term.unmarked, kindsAgree, kindsAgree, kindsAgree_unmarked e]
  | .tuple ty es, Γ => by
    rw [Term.unmarked, kindsAgree, kindsAgree, allKindsAgree_unmarked es,
      Term.unmarkedAll_eq_map, List.flatMap_map]
    simp only [Term.ty_unmarked]
  | .branch ty c a thenName elseName, Γ => by
    rw [Term.unmarked, kindsAgree, kindsAgree, Term.ty_unmarked, kindsAgree_unmarked c,
      kindsAgree_unmarked a]
  | .letIn ty p i b, Γ => by
    rw [Term.unmarked, kindsAgree, kindsAgree, Pattern.ty_unmarked, Term.ty_unmarked,
      Term.ty_unmarked, patternKindsAgree_unmarked, scopedBind_unmarked, kindsAgree_unmarked i,
      kindsAgree_unmarked b]
  | .call ty name a, Γ => by
    rw [Term.unmarked, kindsAgree, kindsAgree, kindsAgree_unmarked a]
  | .test ty e p, Γ => by
    rw [Term.unmarked, kindsAgree, kindsAgree, Term.ty_unmarked, kindsAgree_unmarked e]

theorem allKindsAgree_unmarked : ∀ (ts : List Term) (Γ : List (Nat × List StackKind)),
    allKindsAgree Γ (Term.unmarkedAll ts) = allKindsAgree Γ ts
  | [], Γ => rfl
  | t :: ts, Γ => by
    rw [Term.unmarkedAll, allKindsAgree, allKindsAgree, kindsAgree_unmarked t,
      allKindsAgree_unmarked ts]

theorem fieldKindsAgree_unmarked : ∀ (fields : List (String × Term))
    (Γ : List (Nat × List StackKind)),
    fieldKindsAgree Γ (Term.unmarkedFields fields) = fieldKindsAgree Γ fields
  | [], Γ => rfl
  | (key, t) :: rest, Γ => by
    rw [Term.unmarkedFields, fieldKindsAgree, fieldKindsAgree, kindsAgree_unmarked t,
      fieldKindsAgree_unmarked rest]

end

mutual

theorem binders_eq_map : ∀ p : Pattern, p.binders = (typedBinders p).map (·.1)
  | .int .. | .range .. | .wildcard _ | .var .. => rfl
  | .list _ ps | .tuple _ ps => bindersOfAll_eq_map ps
  | .compound _ fields => bindersOfFields_eq_map fields

theorem bindersOfAll_eq_map : ∀ ps : List Pattern,
    Pattern.bindersOfAll ps = (typedBindersOfAll ps).map (·.1)
  | [] => rfl
  | p :: ps => by
    rw [Pattern.bindersOfAll, typedBindersOfAll, List.map_append, binders_eq_map p,
      bindersOfAll_eq_map ps]

theorem bindersOfFields_eq_map : ∀ fields : List (String × Pattern),
    Pattern.bindersOfFields fields = (typedBindersOfFields fields).map (·.1)
  | [] => rfl
  | (key, p) :: rest => by
    rw [Pattern.bindersOfFields, typedBindersOfFields, List.map_append, binders_eq_map p,
      bindersOfFields_eq_map rest]

end

section

variable (options : Options)

/-- What a let does with the slots of a binder without variables is nothing, marked or not. -/
theorem leave_unmarked {p : Pattern} (hp : p.has .noDrop → typedBinders p = [])
    {frame : List StackKind} (hframe : frame = frameSlots (typedBinders p)) (ks : List StackKind) :
    (if p.unmarked.has .noDrop then
      follow fun s => p.unmarked.binders.foldl (fun s v => s.release v.level) s
    else dropAll options ks frame.reverse) =
    if p.has .noDrop then follow fun s => p.binders.foldl (fun s v => s.release v.level) s
    else dropAll options ks frame.reverse := by
  have hmarks : p.unmarked.has .noDrop = false := by cases p <;> rfl
  rw [hmarks, if_neg Bool.false_ne_true]
  by_cases h : p.has .noDrop = true
  · rw [if_pos h, hframe, binders_eq_map, hp h]
    rfl
  · rw [if_neg h]

mutual

/-- A term that keeps no variable has the code that it has without marks. -/
theorem term_unmarked : ∀ (t : Term) (Γ : List (Nat × List StackKind)), kindsAgree Γ t →
    kept t = [] → term options t.unmarked = term options t
  | .literal .., Γ, _, _ | .closure .., Γ, _, _ | .var .., Γ, _, _ | .command .., Γ, _, _
  | .ref .., Γ, _, _ => rfl
  | .array ty kind es, Γ, h, hkept => by
    rw [kindsAgree, Bool.and_eq_true] at h
    rw [Term.unmarked, term, term, arrayShell_unmarked]
    refine congrArg _ (funext fun k => congrArg _ (funext fun _ => ?_))
    exact arrayElements_unmarked k kind es 0 Γ h.2 hkept
  | .list ty es, Γ, h, hkept => by
    rw [kindsAgree, Bool.and_eq_true] at h
    rw [Term.unmarked, term, term, listElements_unmarked es Γ h.2 hkept]
  | .compound ty fields, Γ, h, hkept => by
    rw [kindsAgree, Bool.and_eq_true] at h
    rw [Term.unmarked, term, term, compoundFields_unmarked fields Γ h.2 hkept]
  | .tuple ty es, Γ, h, hkept => by
    rw [kindsAgree, Bool.and_eq_true] at h
    rw [Term.unmarked, term, term, terms_unmarked es Γ h.2 hkept]
  | .branch ty c a thenName elseName, Γ, h, hkept => by
    rw [kindsAgree, Bool.and_eq_true, Bool.and_eq_true] at h
    obtain ⟨hc, ha⟩ := List.append_eq_nil_iff.1 hkept
    rw [Term.unmarked, term, term, term_unmarked c Γ h.1.2 hc, term_unmarked a Γ h.2 ha,
      Term.ty_unmarked]
  | .letIn ty p i b, Γ, h, hkept => by
    simp only [kindsAgree, Bool.and_eq_true] at h
    obtain ⟨⟨⟨⟨-, hp⟩, hi⟩, -⟩, hb⟩ := h
    simp only [kept, List.append_eq_nil_iff] at hkept
    obtain ⟨⟨hkeptInit, hmarked⟩, hkeptBody⟩ := hkept
    have hnone : p.has .noDrop → typedBinders p = [] := fun hm => by
      rwa [keptByBinder, if_pos hm] at hmarked
    rw [Term.unmarked, term, term, term_unmarked i Γ hi hkeptInit, bind_unmarked,
      term_unmarked b _ hb hkeptBody, Term.ty_unmarked]
    refine congrArg _ (funext fun _ =>
      (changes_bind options p hp).bind_congr fun frame hframe => ?_)
    exact congrArg _ (funext fun _ => leave_unmarked options hnone hframe _)
  | .call ty name a, Γ, h, hkept => by
    rw [Term.unmarked, term, term, term_unmarked a Γ h hkept, Term.ty_unmarked]
  | .test ty e p, Γ, h, hkept => by
    simp only [kindsAgree, Bool.and_eq_true] at h
    rw [Term.unmarked, term, term, term_unmarked e Γ h.2 hkept]

theorem terms_unmarked : ∀ (ts : List Term) (Γ : List (Nat × List StackKind)),
    allKindsAgree Γ ts → keptByAll ts = [] →
      terms options (Term.unmarkedAll ts) = terms options ts
  | [], Γ, _, _ => rfl
  | t :: ts, Γ, h, hkept => by
    rw [allKindsAgree, Bool.and_eq_true] at h
    obtain ⟨ht, hts⟩ := List.append_eq_nil_iff.1 hkept
    rw [Term.unmarkedAll, terms, terms, term_unmarked t Γ h.1 ht, terms_unmarked ts Γ h.2 hts]

theorem arrayElements_unmarked (shell : StackKind) (kind : ArrayKind) : ∀ (ts : List Term)
    (index : Nat) (Γ : List (Nat × List StackKind)), allKindsAgree Γ ts → keptByAll ts = [] →
      arrayElements options shell kind index (Term.unmarkedAll ts) =
        arrayElements options shell kind index ts
  | [], index, Γ, _, _ => rfl
  | t :: ts, index, Γ, h, hkept => by
    rw [allKindsAgree, Bool.and_eq_true] at h
    obtain ⟨ht, hts⟩ := List.append_eq_nil_iff.1 hkept
    rw [Term.unmarkedAll, arrayElements, arrayElements, constant?_unmarked, Term.ty_unmarked,
      term_unmarked t Γ h.1 ht, arrayElements_unmarked shell kind ts (index + 1) Γ h.2 hts]

theorem listElements_unmarked : ∀ (ts : List Term) (Γ : List (Nat × List StackKind)),
    allKindsAgree Γ ts → keptByAll ts = [] →
      listElements options (Term.unmarkedAll ts) = listElements options ts
  | [], Γ, _, _ => rfl
  | t :: ts, Γ, h, hkept => by
    rw [allKindsAgree, Bool.and_eq_true] at h
    obtain ⟨ht, hts⟩ := List.append_eq_nil_iff.1 hkept
    rw [Term.unmarkedAll, listElements, listElements, Term.ty_unmarked, term_unmarked t Γ h.1 ht,
      listElements_unmarked ts Γ h.2 hts]

theorem compoundFields_unmarked : ∀ (fields : List (String × Term))
    (Γ : List (Nat × List StackKind)), fieldKindsAgree Γ fields → keptByFields fields = [] →
      compoundFields options (Term.unmarkedFields fields) = compoundFields options fields
  | [], Γ, _, _ => rfl
  | (key, t) :: rest, Γ, h, hkept => by
    rw [fieldKindsAgree, Bool.and_eq_true] at h
    obtain ⟨ht, hrest⟩ := List.append_eq_nil_iff.1 hkept
    rw [Term.unmarkedFields, compoundFields, compoundFields, Term.ty_unmarked,
      term_unmarked t Γ h.1 ht, compoundFields_unmarked rest Γ h.2 hrest]

end

/-! ## Functions and their marks -/

variable {f : Flat.Function} {is : List Target.Instruction} {body : Term}

theorem functionKindsAgree_of_unmarked (hf : functionKindsAgree f)
    (hbody : body.unmarked = f.body.unmarked) : functionKindsAgree { f with body } := by
  have hty : body.ty = f.body.ty := by rw [← Term.ty_unmarked, hbody, Term.ty_unmarked]
  have hkinds : kindsAgree (Scoped.bind [] f.binder).kinds body =
      kindsAgree (Scoped.bind [] f.binder).kinds f.body := by
    rw [← kindsAgree_unmarked, hbody, kindsAgree_unmarked]
  rw [functionKindsAgree] at hf ⊢
  rwa [hty, hkinds]

/-- A function that is emitted keeps no slot of a let. -/
theorem slotless_of_function (hf : functionKindsAgree f) (hcode : function options f = .ok is) :
    frameSlots (kept f.body) = [] := by
  have hspec := function_spec options hf
  rw [hcode] at hspec
  exact hspec.2

/-- **Keeping the slots of a let is a defect.** If a function is emitted, and other marks on the
binders of its lets make it keep a slot, then it is rejected with these, as if an earlier phase were
wrong. -/
theorem isDefect_of_kept (hf : functionKindsAgree f) (hcode : function options f = .ok is)
    (hbody : body.unmarked = f.body.unmarked) (hkept : frameSlots (kept body) ≠ []) :
    ∃ e, function options { f with body } = .error e ∧ e.isDefect = true := by
  have hspec := function_spec options hf
  rw [hcode] at hspec
  have hemittable : emittable body := by
    rw [← emittable_unmarked, hbody, emittable_unmarked]
    exact hspec.1.2
  have hmarked := function_spec options (functionKindsAgree_of_unmarked hf hbody)
  split at hmarked
  · exact absurd hmarked.2 hkept
  · next e he => exact ⟨e, he, hmarked ⟨hspec.1.1, hemittable⟩⟩

/-- Marks on the binders of lets change nothing where these have no variables. -/
theorem function_eq_of_marks (hf : functionKindsAgree f) (hnone : kept f.body = [])
    (hbody : body.unmarked = f.body.unmarked) (hkept : kept body = []) :
    function options { f with body } = function options f := by
  have hagree := functionKindsAgree_of_unmarked hf hbody
  simp only [functionKindsAgree, Bool.and_eq_true] at hf hagree
  have hterm : term options body = term options f.body := by
    rw [← term_unmarked options body _ hagree.1.2 hkept, hbody,
      term_unmarked options f.body _ hf.1.2 hnone]
  have hrun : functionBody options { f with body } = functionBody options f := by
    unfold functionBody
    rw [hterm]
    rfl
  rw [function, function, hrun]

end

/-- A let under a result of the same kind. -/
def letOne (marks : List Flat.Mark) : Flat.Function where
  marks := []
  name := ⟨["main"], "f"⟩
  binder := .ofVar ⟨"x", 0⟩ .int
  result := .int
  body := .letIn .int (.var ⟨marks, .int⟩ ⟨"y", 1⟩) (.literal .int (.int 1)) (.var .int ⟨"y", 1⟩)
  restore := none

example : (∃ is, function ⟨"minecraft", false⟩ (letOne []) = .ok is) ∧
    function ⟨"minecraft", false⟩ (letOne [.noDrop]) =
      .error (.shapeMismatch (letOne []).name.text .int 1 2) :=
  ⟨⟨_, rfl⟩, by cbv⟩

end Stagecraft.Emit
