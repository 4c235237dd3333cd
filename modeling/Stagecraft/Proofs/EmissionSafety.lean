import Stagecraft.Proofs.NodeTypes

/-!
# Code generation never finds a defect in what conversion gives

Conversion of a well-typed definition is followed step by step: a converted term pushes the slots of
its type in the scope it is converted in, and a helper is a function of a binder and a body that fit
each other. The helpers of a term are the closure bodies, whose scope is that of their own binder and
the captured variables, and the clauses of conditionals, which take the whole scope.
-/

namespace Stagecraft.Flat

open Staged (Table Context)
open Emit (Typed typedBinders Pushes Packs packs_of_pushes)

section

variable {R : Progress} {site : Site} {table : Table}

/-- A converted term has the flat type of its source and pushes its slots. -/
def Fits (table : Table) (S : Bindings) (t : Staged.Term) (t' : Term) : Prop :=
  Ty.ofStaged table t.ty = .ok t'.ty ∧ Pushes S.vars t'

theorem pushes_argument (S : Bindings) : Pushes S.vars S.argument := by
  refine .tuple ?_ fun e he => ?_
  · rw [Ty.erase, Ty.eraseAll_eq, List.flatMap_map]
  · obtain ⟨v, hv, rfl⟩ := List.mem_map.1 he
    exact .var hv rfl

theorem has_of_ofStagedAll {marks : List Staged.Mark} {marks' : List Mark}
    (h : Mark.ofStagedAll marks = .ok marks') (hdrop : .noDrop ∉ marks) :
    marks'.contains .noDrop = false := by
  induction marks generalizing marks' with
  | nil =>
    cases h
    rfl
  | cons a rest ih =>
    rw [List.mem_cons, not_or] at hdrop
    cases a with
    | tick | load | builtin =>
      simp only [Mark.ofStagedAll, Except.bind_ok] at h
      obtain ⟨rest', hrest, h⟩ := h
      cases h
      rw [List.contains_cons, ih hrest hdrop.2]
      rfl
    | exported => exact ih h hdrop.2
    | noDrop => exact absurd rfl hdrop.1
    | inlined | static => cases h

theorem Mirrors.has_noDrop {p : Staged.Pattern} {S S' : Bindings} {p' : Pattern}
    (h : Mirrors table S p p' S') (hdrop : .noDrop ∉ p.info.marks) : p'.has .noDrop = false := by
  cases h with
  | int hinfo | range hinfo | var hinfo | wildcard hinfo =>
    exact has_of_ofStagedAll hinfo.marks hdrop
  | list hinfo | compound hinfo | tuple hinfo => exact has_of_ofStagedAll hinfo.marks hdrop

theorem checkClause_ok {kinds : List Target.StackKind} {t : Staged.Term} {τ : Ty}
    (h : checkClause table kinds t = .ok ()) (hτ : Ty.ofStaged table t.ty = .ok τ) :
    τ.erase = kinds := by
  unfold checkClause at h
  rw [hτ] at h
  by_cases hk : τ.erase = kinds
  · exact hk
  · simp only [bind, Except.bind, if_neg hk] at h
    cases h

/-- Converted terms have the flat types of their sources and push their slots. -/
structure FitAll (table : Table) (S : Bindings) (ts : List Staged.Term) (ts' : List Term) : Prop where
  tys : List.Forall₂ (fun t τ => Ty.ofStaged table t = .ok τ) (ts.map (·.ty)) (ts'.map (·.ty))
  pushes : ∀ t' ∈ ts', Pushes S.vars t'

/-- A closure body fits its binder, which takes the parameter and the captured variables. -/
theorem packs_closure {p' : Pattern} {inner : Bindings} {captures : List Capture} {τ : Ty}
    {b : Staged.Term} {b' : Term} (hp : Emit.patternKindsAgree p' = true)
    (hinner : inner.vars = typedBinders p') (hτ : Ty.ofStaged table b.ty = .ok τ)
    (hb : Fits table (bindCaptures inner captures).2 b b') (name : DefName)
    (restore : Option Int32) :
    Packs ⟨[], name, .ofTuple [p', (bindCaptures inner captures).1], τ, b', restore⟩ := by
  refine packs_of_pushes rfl rfl (patternKindsAgree_closure hp inner captures) ?_ ?_
  · rw [typedBinders_closure hinner]
    exact hb.2
  · rw [hb.1] at hτ
    cases hτ
    rfl

/-- A clause of a conditional fits the binder of its scope. -/
theorem packs_clause {S : Bindings} {τ : Ty} {t : Staged.Term} {t' : Term}
    (hcheck : checkClause table τ.erase t = .ok ()) (ht : Fits table S t t') (name : DefName)
    (restore : Option Int32) : Packs ⟨[], name, S.binder, τ, t', restore⟩ := by
  refine packs_of_pushes rfl rfl (patternKindsAgree_binder S) ?_ (checkClause_ok hcheck ht.1)
  rw [typedBinders_binder]
  exact ht.2

mutual

/-- Conversion of a well-typed term gives one that pushes its slots, and helpers that are no
defects. -/
theorem registers_fits {pre : Prop} : ∀ (t : Staged.Term) {Γ : Context} {S : Bindings},
    t.WellTyped table Γ → (pre → Tracks table Γ S) →
      Registers R site Packs pre (Term.ofStaged table site S t) (Fits table S t)
  | .literal t l, Γ, S, _, _ => by
    unfold Term.ofStaged
    exact Registers.lift.bind fun τ => .ret fun ⟨_, hτ⟩ => ⟨hτ, .literal l⟩
  | .array t kind es, Γ, S, h, hS => by
    unfold Term.ofStaged
    refine Registers.lift.bind fun τ =>
      (registersAll_fits es h fun hpre => hS hpre.1).bind fun es' => .ret ?_
    rintro ⟨⟨_, hτ⟩, hes⟩
    exact ⟨hτ, .array kind hes.pushes⟩
  | .list t es, Γ, S, ⟨⟨e, he⟩, h⟩, hS => by
    unfold Term.ofStaged
    refine Registers.lift.bind fun τ =>
      (registersAll_fits es h fun hpre => hS hpre.1).bind fun es' => .ret ?_
    rintro ⟨⟨_, hτ⟩, hes⟩
    exact ⟨hτ, .list (ofStaged_list (he ▸ hτ)) hes.pushes⟩
  | .compound t fields, Γ, S, ⟨⟨ts, hts⟩, h⟩, hS => by
    unfold Term.ofStaged
    refine Registers.lift.bind fun τ =>
      (registersFields_fits fields h fun hpre => hS hpre.1).bind fun fields' => .ret ?_
    rintro ⟨⟨_, hτ⟩, hfields⟩
    exact ⟨hτ, .compound (ofStaged_compound (hts ▸ hτ)) hfields⟩
  | .ref t e, Γ, S, h, hS => by
    unfold Term.ofStaged
    refine Registers.lift.bind fun τ =>
      (registers_fits e h fun hpre => hS hpre.1).bind fun e' => .ret ?_
    rintro ⟨⟨_, hτ⟩, -⟩
    exact ⟨hτ, .ref e'⟩
  | .tuple t es, Γ, S, ⟨ht, h⟩, hS => by
    unfold Term.ofStaged
    refine Registers.lift.bind fun τ =>
      (registersAll_fits es h fun hpre => hS hpre.1).bind fun es' => .ret ?_
    rintro ⟨⟨_, hτ⟩, hes⟩
    refine ⟨hτ, .tuple ?_ hes.pushes⟩
    rw [erase_of_agrees_tuple ht hτ hes.tys, List.flatMap_map]
  | .lambda t p b, Γ, S, ⟨ht, hp, hb⟩, hS => by
    unfold Term.ofStaged
    refine Registers.lift.bind fun τ => Registers.lift.bind fun captures => ?_
    split
    · next σ τ =>
      refine Registers.lift.bind fun ⟨p', inner⟩ => ?_
      refine (registers_fits b hb fun hpre =>
        (hS hpre.1.1.1).closure hpre.1.2 (mirrors_ofStaged hpre.2)).bind fun b' => ?_
      refine (Registers.addClosure ?_).bind fun tag => .ret ?_
      · rintro ⟨⟨⟨⟨_, hτ⟩, _⟩, hp'⟩, hb'⟩
        have hmirrors := mirrors_ofStaged hp'
        exact packs_closure (hmirrors.kindsAgree hp) hmirrors.vars_eq
          (ofStaged_function (ht ▸ hτ)) hb'
      · rintro ⟨⟨⟨⟨⟨_, hτ⟩, hcaptures⟩, _⟩, _⟩, _⟩
        exact ⟨hτ, .closure tag rfl fun c hc => (capturesOf_spec hcaptures c hc).2.1⟩
    · exact .throw
  | .apply t f a, Γ, S, ⟨hf, ha⟩, hS => by
    unfold Term.ofStaged
    refine Registers.lift.bind fun τ =>
      (registers_fits f hf fun hpre => hS hpre.1).bind fun f' => ?_
    refine (registers_fits a ha fun hpre => hS hpre.1.1).bind fun a' => .ret ?_
    rintro ⟨⟨⟨_, hτ⟩, hf'⟩, ha'⟩
    refine ⟨hτ, .call dispatcher (.tuple ?_ ?_)⟩
    · rw [Ty.erase, Ty.eraseAll_eq, List.flatMap_map]
    · rintro e he
      rcases List.mem_cons.1 he with rfl | he
      · exact ha'.2
      · exact List.mem_singleton.1 he ▸ hf'.2
  | .cond t c a b, Γ, S, ⟨hty, hc, ha, hb⟩, hS => by
    unfold Term.ofStaged
    refine Registers.lift.bind fun τ => Registers.lift.bind fun _ => Registers.lift.bind fun _ => ?_
    refine (registers_fits c hc fun hpre => hS hpre.1.1.1).bind fun c' =>
      (registers_fits a ha fun hpre => hS hpre.1.1.1.1).bind fun a' => ?_
    refine (Registers.addClause ?_).bind fun thenName => ?_
    · rintro ⟨⟨⟨⟨_, hthen⟩, _⟩, _⟩, ha'⟩ name
      exact packs_clause hthen ha' name _
    refine (registers_fits b hb fun hpre => hS hpre.1.1.1.1.1.1).bind fun b' => ?_
    refine (Registers.addClause ?_).bind fun elseName => .ret ?_
    · rintro ⟨⟨⟨⟨⟨⟨⟨_, _⟩, _⟩, helse⟩, _⟩, _⟩, _⟩, hb'⟩ name
      exact packs_clause helse hb' name _
    · rintro ⟨⟨⟨⟨⟨⟨⟨⟨_, hτ⟩, _⟩, _⟩, hc'⟩, _⟩, _⟩, _⟩, _⟩
      exact ⟨hτ, .branch thenName elseName hc'.2 (ofStaged_scalar (hty ▸ hc'.1))
        (pushes_argument S)⟩
  | .letIn t p i b, Γ, S, ⟨hdrop, hp, hpi, htb, hi, hb⟩, hS => by
    unfold Term.ofStaged
    refine Registers.lift.bind fun τ =>
      (registers_fits i hi fun hpre => hS hpre.1).bind fun i' => ?_
    refine Registers.lift.bind fun ⟨p', inner⟩ => ?_
    refine (registers_fits b hb fun hpre =>
      (mirrors_ofStaged hpre.2).tracks (hS hpre.1.1.1)).bind fun b' => .ret ?_
    rintro ⟨⟨⟨⟨_, hτ⟩, hi'⟩, hp'⟩, hb'⟩
    have hmirrors := mirrors_ofStaged hp'
    have hbinder : p'.ty = i'.ty := Except.ok.inj (hmirrors.ty.symm.trans (hpi.trans hi'.1))
    have hbody : τ = b'.ty := Except.ok.inj (hτ.symm.trans (htb.trans hb'.1))
    refine ⟨hτ, .letIn (hmirrors.has_noDrop hdrop) hi'.2 (hmirrors.kindsAgree hp) (by rw [hbinder])
      ?_ (by rw [hbody])⟩
    rw [← hmirrors.vars_eq]
    exact hb'.2
  | .var t v, Γ, S, h, hS => by
    unfold Term.ofStaged
    refine Registers.lift.bind fun τ => Registers.lift.bind fun ⟨v', σ⟩ => .ret ?_
    rintro ⟨⟨hpre, hτ⟩, hv⟩
    obtain ⟨hmem, hfind⟩ := Bindings.resolve_spec hv
    obtain ⟨u, hu, hσ⟩ := hS hpre hfind
    have hty : τ = σ := Except.ok.inj (hτ.symm.trans ((h u hu).trans hσ))
    exact ⟨hτ, .var hmem (by rw [hty])⟩
  | .call t name a, Γ, S, h, hS => by
    unfold Term.ofStaged
    refine Registers.lift.bind fun τ => ?_
    split
    · exact .throw
    · refine (registers_fits a h fun hpre => hS hpre.1).bind fun a' => .ret ?_
      rintro ⟨⟨_, hτ⟩, ha'⟩
      exact ⟨hτ, .call name ha'.2⟩
  | .test t e p, Γ, S, ⟨hty, hp, hpe, he⟩, hS => by
    unfold Term.ofStaged
    refine Registers.lift.bind fun τ =>
      (registers_fits e he fun hpre => hS hpre.1).bind fun e' => ?_
    refine Registers.lift.bind fun ⟨p', inner⟩ => .ret ?_
    rintro ⟨⟨⟨_, hτ⟩, he'⟩, hp'⟩
    have hmirrors := mirrors_ofStaged hp'
    have hscrutinee : p'.ty = e'.ty := Except.ok.inj (hmirrors.ty.symm.trans (hpe.trans he'.1))
    exact ⟨hτ, .test (ofStaged_scalar (hty ▸ hτ)) he'.2 (hmirrors.kindsAgree hp)
      (by rw [hscrutinee])⟩
  | .command t line, Γ, S, _, _ => by
    unfold Term.ofStaged
    exact Registers.lift.bind fun τ => .ret fun ⟨_, hτ⟩ => ⟨hτ, .command line⟩
  | .quote .., Γ, S, _, _ => by
    unfold Term.ofStaged
    exact Registers.lift.bind fun _ => .throw
  | .splice .., Γ, S, _, _ => by
    unfold Term.ofStaged
    exact Registers.lift.bind fun _ => .throw
  | .hole .., Γ, S, _, _ => by
    unfold Term.ofStaged
    exact Registers.lift.bind fun _ => .throw

theorem registersAll_fits {pre : Prop} : ∀ (ts : List Staged.Term) {Γ : Context} {S : Bindings},
    Staged.Term.AllWellTyped table Γ ts → (pre → Tracks table Γ S) →
      Registers R site Packs pre (Term.ofStagedAll table site S ts) (FitAll table S ts)
  | [], Γ, S, _, _ => by
    unfold Term.ofStagedAll
    exact .ret fun _ => ⟨.nil, fun _ he => nomatch he⟩
  | t :: ts, Γ, S, h, hS => by
    unfold Term.ofStagedAll
    refine (registers_fits t h.1 hS).bind fun t' =>
      (registersAll_fits ts h.2 fun hpre => hS hpre.1).bind fun ts' => .ret ?_
    rintro ⟨⟨_, ht'⟩, hts'⟩
    exact ⟨.cons ht'.1 hts'.tys, List.forall_mem_cons.2 ⟨ht'.2, hts'.pushes⟩⟩

theorem registersFields_fits {pre : Prop} : ∀ (fields : List (String × Staged.Term))
    {Γ : Context} {S : Bindings}, Staged.Term.FieldsWellTyped table Γ fields →
      (pre → Tracks table Γ S) →
      Registers R site Packs pre (Term.ofStagedFields table site S fields)
        fun fields' => ∀ f ∈ fields', Pushes S.vars f.2
  | [], Γ, S, _, _ => by
    unfold Term.ofStagedFields
    exact .ret fun _ _ he => nomatch he
  | (key, t) :: rest, Γ, S, h, hS => by
    unfold Term.ofStagedFields
    refine (registers_fits t h.1 hS).bind fun t' =>
      (registersFields_fits rest h.2 fun hpre => hS hpre.1).bind fun rest' => .ret ?_
    rintro ⟨⟨_, ht'⟩, hrest'⟩
    exact List.forall_mem_cons.2 ⟨ht'.2, hrest'⟩

end

/-! ## Definitions -/

mutual

/-- A resource body is plain data or not supported. -/
theorem isDefect_tree : ∀ {t : Term} {e : Emit.Error}, Emit.tree t = .error e → e.isDefect = false
  | .literal .., _, h => nomatch h
  | .array _ _ es, e, h | .list _ es, e, h => by
    unfold Emit.tree at h
    cases hes : Emit.trees es with
    | ok trees =>
      rw [hes] at h
      cases h
    | error err =>
      rw [hes] at h
      cases h
      exact isDefect_trees hes
  | .compound _ fields, e, h => by
    unfold Emit.tree at h
    cases hfields : Emit.fieldTrees fields with
    | ok trees =>
      rw [hfields] at h
      cases h
    | error err =>
      rw [hfields] at h
      cases h
      exact isDefect_fieldTrees hfields
  | .ref _ t, e, h => isDefect_tree (t := t) h
  | .tuple .., _, h | .closure .., _, h | .branch .., _, h | .letIn .., _, h | .var .., _, h
  | .call .., _, h | .test .., _, h | .command .., _, h => by
    cases h
    rfl

theorem isDefect_trees : ∀ {ts : List Term} {e : Emit.Error}, Emit.trees ts = .error e →
    e.isDefect = false
  | [], _, h => nomatch h
  | t :: ts, e, h => by
    unfold Emit.trees at h
    cases ht : Emit.tree t with
    | error err =>
      rw [ht] at h
      cases h
      exact isDefect_tree ht
    | ok tree =>
      cases hts : Emit.trees ts with
      | error err =>
        rw [ht, hts] at h
        cases h
        exact isDefect_trees hts
      | ok trees =>
        rw [ht, hts] at h
        cases h

theorem isDefect_fieldTrees : ∀ {fields : List (String × Term)} {e : Emit.Error},
    Emit.fieldTrees fields = .error e → e.isDefect = false
  | [], _, h => nomatch h
  | (key, t) :: rest, e, h => by
    unfold Emit.fieldTrees at h
    cases ht : Emit.tree t with
    | error err =>
      rw [ht] at h
      cases h
      exact isDefect_tree ht
    | ok tree =>
      cases hrest : Emit.fieldTrees rest with
      | error err =>
        rw [ht, hrest] at h
        cases h
        exact isDefect_fieldTrees hrest
      | ok trees =>
        rw [ht, hrest] at h
        cases h

end

/-- Functions among definitions are no defects for code generation. -/
def PacksDefinition (d : Definition) : Prop := ∀ f, d = .function f → Packs f

theorem registers_packs {pre : Prop} {d : Staged.Definition} (h : d.WellTyped table) :
    Registers R site Packs pre (Definition.ofStaged table site d)
      fun own => ∀ e ∈ own, PacksDefinition e := by
  rcases d with r | f | _
  · unfold Definition.ofStaged
    refine (registers_fits r.body h fun _ => Tracks.empty).bind fun body =>
      Registers.lift.bind fun marks => .ret ?_
    rintro - e he f rfl
    cases List.mem_singleton.1 he
  · obtain ⟨hf, hdrop, hp, hb, hresult⟩ := h
    unfold Definition.ofStaged Definition.ofStagedFunction
    refine Registers.bind (Q := PacksDefinition) ?_ fun e => .ret ?_
    · refine Registers.lift.bind fun marks => ?_
      split
      · refine Registers.lift.bind fun param => Registers.lift.bind fun result => .ret ?_
        rintro - f ⟨⟩
      · refine Registers.lift.bind fun ⟨binder, scope⟩ => ?_
        refine (registers_fits f.body hb fun hpre =>
          (mirrors_ofStaged hpre.2).tracks Tracks.empty).bind fun body =>
          Registers.lift.bind fun result => .ret ?_
        rintro ⟨⟨⟨⟨_, hmarks⟩, hbinder⟩, hbody⟩, hτ⟩ _ ⟨⟩
        have hmirrors := mirrors_ofStaged hbinder
        refine packs_of_pushes (has_of_ofStagedAll hmarks hf) (hmirrors.has_noDrop hdrop)
          (hmirrors.kindsAgree hp) ?_ ?_
        · rw [← List.nil_append (typedBinders binder)]
          exact hmirrors.vars_eq ▸ hbody.2
        · have hty : body.ty = result := Except.ok.inj (hbody.1.symm.trans (hresult.trans hτ))
          rw [hty]
    · rintro ⟨_, he⟩ d hd
      rw [List.mem_singleton] at hd
      exact hd ▸ he
  · unfold Definition.ofStaged
    exact .ret fun _ e he => nomatch he

theorem unsupported_of_isDefect {e : Emit.Error} (h : e.isDefect = false) :
    ∃ what, e = .unsupported what := by
  cases e with
  | unsupported what => exact ⟨what, rfl⟩
  | unresolvedVariable | stackUnderflow | shapeMismatch => cases h

/-- Whether no function among definitions has more slots than a 32-bit index can count. -/
def areAddressable (ds : List Definition) : Bool :=
  ds.all fun
    | .function f => Emit.functionWeight f < 2 ^ 31
    | .builtin _ | .resource _ => true

/-- **Code generation never reports a defect on what conversion gives.** If a well-typed definition
is converted, then packing any of the definitions it becomes succeeds or fails because something is
not supported. Slot indices are 32-bit numbers, so the functions must not have more slots than those
can count. -/
theorem packs_of_convert {d : Staged.Definition} {before after : ClosureTable}
    {flat : List Definition} (hd : d.WellTyped table)
    (hconvert : convert table before d = .ok (flat, after)) (hsmall : areAddressable flat = true) :
    ∀ e ∈ flat, ∀ options, (∃ artifact, Emit.artifact? options e = .ok artifact) ∨
      ∃ what, Emit.artifact? options e = .error (.unsupported what) := by
  unfold convert at hconvert
  rw [Except.bind_ok] at hconvert
  obtain ⟨⟨own, progress⟩, hrun, hconvert⟩ := hconvert
  cases hconvert
  have hreg : Registers progress ⟨d.name, before.size⟩ Packs True _ _ := registers_packs hd
  have hempty : Progress.Kept ⟨d.name, before.size⟩ Packs ⟨0, [], []⟩ :=
    ⟨Progress.numbered_empty _, fun f hf => nomatch hf⟩
  obtain ⟨hkept, hown⟩ := (hreg hrun).2 trivial (.refl progress) hempty
  have hpacks : ∀ e ∈ own ++ progress.helpers.map .function, PacksDefinition e := by
    intro e he f hf
    rcases List.mem_append.1 he with he | he
    · exact hown e he f hf
    · obtain ⟨g, hg, rfl⟩ := List.mem_map.1 he
      cases hf
      exact hkept.fine f hg
  intro e he options
  have hdefect : ∀ err, Emit.artifact? options e = .error err → err.isDefect = false := by
    intro err herr
    cases e with
    | builtin b => cases herr
    | resource r =>
      cases ht : Emit.tree r.body with
      | ok tree =>
        simp only [Emit.artifact?, ht] at herr
        cases herr
      | error err' =>
        simp only [Emit.artifact?, ht] at herr
        cases herr
        exact isDefect_tree ht
    | function f =>
      have hweight := of_decide_eq_true (List.all_eq_true.1 hsmall _ he)
      cases hf : Emit.function options f with
      | ok code =>
        simp only [Emit.artifact?, hf] at herr
        cases herr
      | error err' =>
        simp only [Emit.artifact?, hf] at herr
        cases herr
        exact hpacks _ he f rfl hweight options err hf
  cases h : Emit.artifact? options e with
  | ok artifact => exact .inl ⟨artifact, rfl⟩
  | error err =>
    obtain ⟨what, rfl⟩ := unsupported_of_isDefect (hdefect err h)
    exact .inr ⟨what, rfl⟩

/-- A function with a record pattern, a conditional, a local function that captures a variable,
shadowed names, a refined type and a name for a type. -/
def choose : Staged.Definition := .function ⟨[], ⟨["main"], "choose"⟩,
  .tuple (Staged.Pattern.plain (.tuple [.alias ⟨["main"], "number"⟩, .int]))
    [.var (Staged.Pattern.plain .int) ⟨"x", 0⟩, .var (Staged.Pattern.plain .int) ⟨"y", 1⟩],
  .int,
  .ofLet (.compound (Staged.Pattern.plain (.compound [("a", .int)]))
      [("a", .var (Staged.Pattern.plain .int) ⟨"x", 2⟩)])
    (.ofFields [("a", .literal (.singleton (.int 7)) (.int 7))])
    (.ofCond (.ofTest (.var .int ⟨"y", 1⟩) (.int (Staged.Pattern.plain .int) 3))
      (.ofApply (.ofLambda (.var (Staged.Pattern.plain .int) ⟨"y", 3⟩) (.var .int ⟨"x", 2⟩))
        (.var .int ⟨"x", 2⟩))
      (.var (.alias ⟨["main"], "number"⟩) ⟨"x", 2⟩))⟩

/-- The definition `choose` and the type it names. -/
def chooser : Table := .ofList [.alias ⟨[], ⟨["main"], "number"⟩, .int⟩, choose]

theorem packs_choose : choose.WellTyped chooser ∧ ∃ flat after,
    convert chooser .empty choose = .ok (flat, after) ∧ areAddressable flat = true ∧
    flat.map (·.name.name) = ["choose", "choose:0", "choose:1", "choose:2"] ∧
    ∀ e ∈ flat, ∀ options, (∃ artifact, Emit.artifact? options e = .ok artifact) ∨
      ∃ what, Emit.artifact? options e = .error (.unsupported what) := by
  have htyped : choose.WellTyped chooser := by
    have hvar : ∀ {name : String} {t u : Staged.Ty} {Γ : Context}, t.Agrees chooser u →
        Keyed.find? name Γ = some u → ∀ w, Keyed.find? name Γ = some w → t.Agrees chooser w := by
      rintro name t u Γ ht hu w hw
      rw [hu] at hw
      cases hw
      exact ht
    refine ⟨by decide, by decide, ⟨rfl, trivial, trivial, trivial⟩, ?_, rfl⟩
    refine ⟨by decide, ⟨⟨_, rfl⟩, trivial, trivial⟩, rfl, rfl, ⟨⟨_, rfl⟩, trivial, trivial⟩, ?_⟩
    refine ⟨rfl, ⟨rfl, rfl, rfl, hvar rfl rfl⟩, ⟨⟨rfl, trivial, hvar rfl rfl⟩, hvar rfl rfl⟩, ?_⟩
    exact @hvar _ _ .int _ rfl rfl
  have hchecks : ((convert chooser .empty choose).toOption.any fun r => areAddressable r.1 &&
      r.1.map (·.name.name) == ["choose", "choose:0", "choose:1", "choose:2"]) = true := by
    decide +kernel
  cases hconvert : convert chooser .empty choose with
  | error e =>
    rw [hconvert] at hchecks
    cases hchecks
  | ok r =>
    obtain ⟨flat, after⟩ := r
    rw [hconvert] at hchecks
    simp only [Except.toOption, Option.any_some, Bool.and_eq_true, beq_iff_eq] at hchecks
    exact ⟨htyped, flat, after, rfl, hchecks.1, hchecks.2,
      packs_of_convert htyped hconvert hchecks.1⟩

end

end Stagecraft.Flat
