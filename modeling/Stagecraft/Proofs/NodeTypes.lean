import Stagecraft.Proofs.HelperLogic
import Stagecraft.Proofs.TermSlots

/-!
# Definitions that are well typed node by node

A definition is well typed if its nodes carry the types that their constructors determine, where
refinements and aliases do not count. Conversion keeps this: whatever it gives is laid out well, the
helpers included, so code generation never finds a defect in it (`isDefect_of_convert`).

The types of variables are looked up by name in the source and by level in the flat form. Inside a
local function the two scopes differ: the flat one has the variables of the binder and the captured
ones alone, in this order. `Tracks` ties them together. It says nothing of variables that the flat
scope lacks, since conversion refuses to look them up.
-/

namespace Stagecraft

open Flat (Bindings)

/-! ## Typing -/

namespace Staged

/-- Variables by name with their types, the innermost first. -/
abbrev Context := List (String × Ty)

mutual

/-- The variables that a pattern binds by name, with their types, from left to right. -/
def Pattern.typed : Pattern → Context
  | .int .. | .range .. | .wildcard _ | .hole _ => []
  | .list _ ps | .tuple _ ps => typedOfAll ps
  | .compound _ fields => typedOfFields fields
  | .var info v => [(v.name, info.ty)]

def Pattern.typedOfAll : List Pattern → Context
  | [] => []
  | p :: ps => p.typed ++ typedOfAll ps

def Pattern.typedOfFields : List (String × Pattern) → Context
  | [] => []
  | (_, p) :: rest => p.typed ++ typedOfFields rest

end

/-- The context inside a binder. -/
def Context.bind (Γ : Context) (p : Pattern) : Context := p.typed.reverse ++ Γ

section

variable (table : Table)

/-- Two types are the same up to refinements and aliases. -/
def Ty.Agrees (t u : Ty) : Prop := Flat.Ty.ofStaged table t = Flat.Ty.ofStaged table u

mutual

/-- The nodes of a pattern carry the types that their constructors determine. -/
def Pattern.WellTyped : Pattern → Prop
  | .int info _ | .range info _ _ => info.ty.Agrees table .int
  | .list info ps => (∃ t, info.ty.Agrees table (.list t)) ∧ AllWellTyped ps
  | .compound info fields => (∃ ts, info.ty.Agrees table (.compound ts)) ∧ FieldsWellTyped fields
  | .tuple info ps => info.ty.Agrees table (.tuple (ps.map (·.ty))) ∧ AllWellTyped ps
  | .var .. | .wildcard _ | .hole _ => True

def Pattern.AllWellTyped : List Pattern → Prop
  | [] => True
  | p :: ps => p.WellTyped ∧ AllWellTyped ps

def Pattern.FieldsWellTyped : List (String × Pattern) → Prop
  | [] => True
  | (_, p) :: rest => p.WellTyped ∧ FieldsWellTyped rest

end

mutual

/-- The nodes of a term carry the types that their constructors determine, occurrences that of the
innermost binder of their name, and patterns that of what they are matched against; no binder keeps
its slots. What conversion or code generation checks for itself is left open, as the type of a
literal, and so is what any type serves for, as the type of a call. -/
def Term.WellTyped (Γ : Context) : Term → Prop
  | .literal .. | .command .. | .hole _ => True
  | .array _ _ es => AllWellTyped Γ es
  | .list t es => (∃ e, t.Agrees table (.list e)) ∧ AllWellTyped Γ es
  | .compound t fields => (∃ ts, t.Agrees table (.compound ts)) ∧ FieldsWellTyped Γ fields
  | .ref _ e | .quote _ e | .splice _ e => e.WellTyped Γ
  | .tuple t es => t.Agrees table (.tuple (es.map (·.ty))) ∧ AllWellTyped Γ es
  | .lambda t p b => t.Agrees table (.function p.ty b.ty) ∧ p.WellTyped table ∧
      b.WellTyped (Γ.bind p)
  | .apply _ f a => f.WellTyped Γ ∧ a.WellTyped Γ
  | .cond _ c a b => c.ty.Agrees table .bool ∧ c.WellTyped Γ ∧ a.WellTyped Γ ∧ b.WellTyped Γ
  | .letIn t p i b => .noDrop ∉ p.info.marks ∧ p.WellTyped table ∧ p.ty.Agrees table i.ty ∧
      t.Agrees table b.ty ∧ i.WellTyped Γ ∧ b.WellTyped (Γ.bind p)
  | .var t v => ∀ u, Keyed.find? v.name Γ = some u → t.Agrees table u
  | .call _ _ a => a.WellTyped Γ
  | .test t e p => t.Agrees table .bool ∧ p.WellTyped table ∧ p.ty.Agrees table e.ty ∧
      e.WellTyped Γ

def Term.AllWellTyped (Γ : Context) : List Term → Prop
  | [] => True
  | t :: ts => t.WellTyped Γ ∧ AllWellTyped Γ ts

def Term.FieldsWellTyped (Γ : Context) : List (String × Term) → Prop
  | [] => True
  | (_, t) :: rest => t.WellTyped Γ ∧ FieldsWellTyped Γ rest

end

/-- A function does not keep slots, and the type of its result is that of its body. -/
def Definition.WellTyped : Definition → Prop
  | .function f => .noDrop ∉ f.marks ∧ .noDrop ∉ f.binder.info.marks ∧ f.binder.WellTyped table ∧
      f.body.WellTyped table (Context.bind [] f.binder) ∧ f.body.ty.Agrees table f.result
  | .resource r => r.body.WellTyped table []
  | .alias _ => True

end

end Staged

namespace Flat

open Staged (Table Context)
open Emit (Typed typedBinders typedBindersOfAll typedBindersOfFields Pushes Packs patternKindsAgree
  patternsKindsAgree fieldPatternsKindsAgree)

/-! ## Types -/

theorem Ty.eraseAll_eq (ts : List Ty) : Ty.eraseAll ts = ts.flatMap Ty.erase := by
  induction ts with
  | nil => rfl
  | cons t ts ih => rw [Ty.eraseAll, List.flatMap_cons, ih]

section

variable {table : Table}

/-- The flat form of a type depends on the table for aliases only. -/
theorem exists_tyWith (table : Table) : ∃ ofAlias, Ty.ofStaged table = tyWith ofAlias := by
  unfold Ty.ofStaged
  cases table.size with
  | zero => exact ⟨_, rfl⟩
  | succ n => exact ⟨_, rfl⟩

theorem tysWith_ok {ofAlias : DefName → Except Error Ty} {ts : List Staged.Ty} {τs : List Ty}
    (h : tysWith ofAlias ts = .ok τs) :
    List.Forall₂ (fun t τ => tyWith ofAlias t = .ok τ) ts τs := by
  induction ts generalizing τs with
  | nil =>
    cases h
    exact .nil
  | cons t ts ih =>
    simp only [tysWith, Except.bind_ok] at h
    obtain ⟨τ, hτ, rest, hrest, h⟩ := h
    cases h
    exact .cons hτ (ih hrest)

theorem ofStaged_tuple {ts : List Staged.Ty} {τ : Ty}
    (h : Ty.ofStaged table (.tuple ts) = .ok τ) :
    ∃ τs, τ = .tuple τs ∧ List.Forall₂ (fun t τ => Ty.ofStaged table t = .ok τ) ts τs := by
  obtain ⟨ofAlias, heq⟩ := exists_tyWith table
  rw [heq] at h ⊢
  simp only [tyWith, Except.bind_ok] at h
  obtain ⟨τs, hτs, h⟩ := h
  cases h
  exact ⟨τs, rfl, tysWith_ok hτs⟩

theorem ofStaged_list {t : Staged.Ty} {τ : Ty} (h : Ty.ofStaged table (.list t) = .ok τ) :
    τ.erase = [.list] := by
  obtain ⟨ofAlias, heq⟩ := exists_tyWith table
  rw [heq] at h
  simp only [tyWith, Except.bind_ok] at h
  obtain ⟨σ, -, h⟩ := h
  cases h
  rfl

theorem ofStaged_compound {ts : List (String × Staged.Ty)} {τ : Ty}
    (h : Ty.ofStaged table (.compound ts) = .ok τ) : τ.erase = [.compound] := by
  obtain ⟨ofAlias, heq⟩ := exists_tyWith table
  rw [heq] at h
  simp only [tyWith, Except.bind_ok] at h
  obtain ⟨σ, -, h⟩ := h
  cases h
  rfl

theorem ofStaged_function {p r : Staged.Ty} {σ τ : Ty}
    (h : Ty.ofStaged table (.function p r) = .ok (.function σ τ)) :
    Ty.ofStaged table r = .ok τ := by
  obtain ⟨ofAlias, heq⟩ := exists_tyWith table
  rw [heq] at h ⊢
  simp only [tyWith, Except.bind_ok] at h
  obtain ⟨σ', -, τ', hτ', h⟩ := h
  cases h
  exact hτ'

theorem ofStaged_scalar {s : Scalar} {τ : Ty} (h : Ty.ofStaged table (.scalar s) = .ok τ) :
    τ.erase = [scalarKind s] := by
  obtain ⟨ofAlias, heq⟩ := exists_tyWith table
  rw [heq] at h
  cases h
  rfl

/-- What agrees with the type of a tuple is the tuple of the flat types of its elements. -/
theorem erase_of_agrees_tuple {t : Staged.Ty} {ts : List Staged.Ty} {τ : Ty} {τs : List Ty}
    (hagrees : t.Agrees table (.tuple ts)) (hτ : Ty.ofStaged table t = .ok τ)
    (hτs : List.Forall₂ (fun t τ => Ty.ofStaged table t = .ok τ) ts τs) :
    τ.erase = τs.flatMap Ty.erase := by
  rw [hagrees] at hτ
  obtain ⟨σs, rfl, hσs⟩ := ofStaged_tuple hτ
  have hsame : σs = τs := by
    clear hagrees hτ
    induction hσs generalizing τs with
    | nil => exact (List.forall₂_nil_left_iff.1 hτs).symm
    | cons h _ ih =>
      obtain ⟨τ', rest, h', hrest, rfl⟩ := List.forall₂_cons_left_iff.1 hτs
      rw [h] at h'
      cases h'
      rw [ih hrest]
  rw [Ty.erase, Ty.eraseAll_eq, hsame]

/-! ## Patterns -/

theorem Mirrors.ty {p : Staged.Pattern} {S S' : Bindings} {p' : Pattern}
    (h : Mirrors table S p p' S') : Ty.ofStaged table p.ty = .ok p'.ty := by
  cases h with
  | int hinfo | range hinfo | var hinfo | wildcard hinfo => exact hinfo.ty
  | list hinfo | compound hinfo | tuple hinfo => exact hinfo.ty

theorem MirrorsAll.tys {ps : List Staged.Pattern} {S S' : Bindings} {ps' : List Pattern}
    (h : MirrorsAll table S ps ps' S') :
    List.Forall₂ (fun t τ => Ty.ofStaged table t = .ok τ) (ps.map (·.ty)) (ps'.map (·.ty)) := by
  induction ps generalizing S S' ps' with
  | nil =>
    cases h
    exact .nil
  | cons p ps ih =>
    cases h with
    | cons hp hps => exact .cons hp.ty (ih hps)

mutual

/-- The kinds in the flat form of a well-typed pattern agree. -/
theorem Mirrors.kindsAgree : ∀ {p : Staged.Pattern} {S S' : Bindings} {p' : Pattern},
    Mirrors table S p p' S' → p.WellTyped table → patternKindsAgree p' = true
  | .int .., _, _, _, .int hinfo, h => beq_iff_eq.2 (ofStaged_scalar (h ▸ hinfo.ty))
  | .range .., _, _, _, .range hinfo, h => beq_iff_eq.2 (ofStaged_scalar (h ▸ hinfo.ty))
  | .list .., _, _, _, .list hinfo hps, ⟨⟨t, ht⟩, h⟩ => by
    rw [patternKindsAgree, Bool.and_eq_true, beq_iff_eq]
    exact ⟨ofStaged_list (ht ▸ hinfo.ty), hps.kindsAgree h⟩
  | .compound .., _, _, _, .compound hinfo hfields, ⟨⟨ts, hts⟩, h⟩ => by
    rw [patternKindsAgree, Bool.and_eq_true, beq_iff_eq]
    exact ⟨ofStaged_compound (hts ▸ hinfo.ty), hfields.kindsAgree h⟩
  | .tuple .., _, _, _, .tuple hinfo hps, ⟨ht, h⟩ => by
    rw [patternKindsAgree, Bool.and_eq_true, beq_iff_eq]
    refine ⟨?_, hps.kindsAgree h⟩
    rw [erase_of_agrees_tuple ht hinfo.ty hps.tys, List.flatMap_map]
  | .var .., _, _, _, .var _, _ => rfl
  | .wildcard .., _, _, _, .wildcard _, _ => rfl

theorem MirrorsAll.kindsAgree : ∀ {ps : List Staged.Pattern} {S S' : Bindings}
    {ps' : List Pattern}, MirrorsAll table S ps ps' S' → Staged.Pattern.AllWellTyped table ps →
      patternsKindsAgree ps' = true
  | [], _, _, _, .nil, _ => rfl
  | _ :: _, _, _, _, .cons hp hps, h => by
    rw [patternsKindsAgree, hp.kindsAgree h.1, hps.kindsAgree h.2, Bool.and_self]

theorem MirrorsFields.kindsAgree : ∀ {fields : List (String × Staged.Pattern)} {S S' : Bindings}
    {fields' : List (String × Pattern)}, MirrorsFields table S fields fields' S' →
      Staged.Pattern.FieldsWellTyped table fields → fieldPatternsKindsAgree fields' = true
  | [], _, _, _, .nil, _ => rfl
  | _ :: _, _, _, _, .cons hp hrest, h => by
    rw [fieldPatternsKindsAgree, hp.kindsAgree h.1, hrest.kindsAgree h.2, Bool.and_self]

end

/-! ## Variables in scope -/

/-- The variables in scope by name with their types, the innermost first. -/
def Bindings.context (S : Bindings) : List (String × Ty) :=
  (S.items.map fun b => (b.name, b.ty)).reverse

/-- A name in the flat scope has the type that it has in the source. -/
def Tracks (table : Table) (Γ : Context) (S : Bindings) : Prop :=
  ∀ ⦃name τ⦄, Keyed.find? name S.context = some τ →
    ∃ t, Keyed.find? name Γ = some t ∧ Ty.ofStaged table t = .ok τ

theorem Tracks.empty : Tracks table [] .empty := fun _ _ h => nomatch h

theorem Bindings.context_bind (S : Bindings) (b : Binding) :
    Bindings.context (S.bind b) = (b.name, b.ty) :: S.context := by
  simp [Bindings.context, Scope.bind]

theorem Bindings.vars_append (S : Bindings) (bs : List Binding) :
    Bindings.vars ⟨S.items ++ bs⟩ =
      S.vars ++ (bs.zipIdx S.length).map fun e => (⟨e.1.name, e.2⟩, e.1.ty) := by
  simp [Bindings.vars, Scope.length, List.zipIdx_append]

/-- A name that is resolved is that of a variable in scope, at the type of the innermost one. -/
theorem Bindings.resolve_spec {S : Bindings} {name : String} {v : Var} {τ : Ty}
    (h : S.resolve name = .ok (v, τ)) :
    (v, τ) ∈ S.vars ∧ Keyed.find? name S.context = some τ := by
  unfold Bindings.resolve at h
  split at h
  · cases h
  · next level hlevel =>
    split at h
    · cases h
    · next b hb =>
      cases h
      obtain ⟨x, hx, hname⟩ := Scope.lastIndex?_some hlevel
      have hbx : b = x := Option.some.inj (hb.symm.trans hx)
      subst hbx
      refine ⟨?_, ?_⟩
      · rw [← beq_iff_eq.1 hname]
        exact List.mem_map.2 ⟨(b, level), List.mk_mem_zipIdx_iff_getElem?.2 hb, rfl⟩
      · clear hname hx
        obtain ⟨items⟩ := S
        induction items using List.reverseRecOn with
        | nil => cases hb
        | append_singleton items c ih =>
          have hbind : (⟨items ++ [c]⟩ : Bindings) = Scope.bind ⟨items⟩ c := rfl
          rw [hbind, Bindings.context_bind, Keyed.find?]
          rw [hbind, Scope.innermost?_bind] at hlevel
          by_cases hc : c.name = name
          · rw [if_pos (beq_iff_eq.2 hc)] at hlevel
            cases hlevel
            rw [if_pos hc]
            rw [hbind, Scope.get?_bind_length] at hb
            cases hb
            rfl
          · rw [if_neg (by simpa using hc)] at hlevel
            obtain ⟨y, hy, -⟩ := Scope.lastIndex?_some hlevel
            rw [if_neg hc]
            refine ih hlevel ?_
            rw [hbind, Scope.get?_bind_of_lt _ _ (List.getElem?_eq_some_iff.1 hy).1] at hb
            exact hb

/-! ### Scopes inside binders -/

mutual

theorem Mirrors.tracks : ∀ {p : Staged.Pattern} {S S' : Bindings} {p' : Pattern} {Γ : Context},
    Mirrors table S p p' S' → Tracks table Γ S → Tracks table (Γ.bind p) S'
  | .int .., _, _, _, _, .int _, hS => hS
  | .range .., _, _, _, _, .range _, hS => hS
  | .list .., _, _, _, _, .list _ hps, hS => hps.tracks hS
  | .compound .., _, _, _, _, .compound _ hfields, hS => hfields.tracks hS
  | .tuple .., _, _, _, _, .tuple _ hps, hS => hps.tracks hS
  | .var info v, S, _, _, Γ, .var hinfo, hS => by
    intro name τ hτ
    rw [Bindings.context_bind, Keyed.find?] at hτ
    change ∃ t, Keyed.find? name ((v.name, info.ty) :: Γ) = some t ∧ _
    rw [Keyed.find?]
    split at hτ
    · next hname =>
      cases hτ
      exact ⟨info.ty, if_pos hname, hinfo.ty⟩
    · next hname =>
      rw [if_neg hname]
      exact hS hτ
  | .wildcard .., _, _, _, _, .wildcard _, hS => hS

theorem MirrorsAll.tracks : ∀ {ps : List Staged.Pattern} {S S' : Bindings} {ps' : List Pattern}
    {Γ : Context}, MirrorsAll table S ps ps' S' → Tracks table Γ S →
      Tracks table ((Staged.Pattern.typedOfAll ps).reverse ++ Γ) S'
  | [], _, _, _, _, .nil, hS => hS
  | p :: ps, _, _, _, Γ, .cons hp hps, hS => by
    rw [Staged.Pattern.typedOfAll, List.reverse_append, List.append_assoc]
    exact hps.tracks (hp.tracks hS)

theorem MirrorsFields.tracks : ∀ {fields : List (String × Staged.Pattern)} {S S' : Bindings}
    {fields' : List (String × Pattern)} {Γ : Context}, MirrorsFields table S fields fields' S' →
      Tracks table Γ S → Tracks table ((Staged.Pattern.typedOfFields fields).reverse ++ Γ) S'
  | [], _, _, _, _, .nil, hS => hS
  | (_, p) :: rest, _, _, _, Γ, .cons hp hrest, hS => by
    rw [Staged.Pattern.typedOfFields, List.reverse_append, List.append_assoc]
    exact hrest.tracks (hp.tracks hS)

end

mutual

/-- A flat pattern binds its variables behind those in scope. -/
theorem Mirrors.vars_eq : ∀ {p : Staged.Pattern} {S S' : Bindings} {p' : Pattern},
    Mirrors table S p p' S' → S'.vars = S.vars ++ typedBinders p'
  | .int .., _, _, _, .int _ => (List.append_nil _).symm
  | .range .., _, _, _, .range _ => (List.append_nil _).symm
  | .list .., _, _, _, .list _ hps => hps.vars_eq
  | .compound .., _, _, _, .compound _ hfields => hfields.vars_eq
  | .tuple .., _, _, _, .tuple _ hps => hps.vars_eq
  | .var .., S, _, _, .var _ => Bindings.vars_append S [_]
  | .wildcard .., _, _, _, .wildcard _ => (List.append_nil _).symm

theorem MirrorsAll.vars_eq : ∀ {ps : List Staged.Pattern} {S S' : Bindings} {ps' : List Pattern},
    MirrorsAll table S ps ps' S' → S'.vars = S.vars ++ typedBindersOfAll ps'
  | [], _, _, _, .nil => (List.append_nil _).symm
  | _ :: _, _, _, _, .cons hp hps => by
    rw [hps.vars_eq, hp.vars_eq, typedBindersOfAll, List.append_assoc]

theorem MirrorsFields.vars_eq : ∀ {fields : List (String × Staged.Pattern)} {S S' : Bindings}
    {fields' : List (String × Pattern)}, MirrorsFields table S fields fields' S' →
      S'.vars = S.vars ++ typedBindersOfFields fields'
  | [], _, _, _, .nil => (List.append_nil _).symm
  | _ :: _, _, _, _, .cons hp hrest => by
    rw [hrest.vars_eq, hp.vars_eq, typedBindersOfFields, List.append_assoc]

end

theorem typedBinders_captureFields (captures : List Capture) (level : Nat) :
    typedBindersOfFields (captureFields level captures) =
      ((captures.map fun c => (⟨c.v.name, c.ty⟩ : Binding)).zipIdx level).map fun e =>
        (⟨e.1.name, e.2⟩, e.1.ty) := by
  induction captures generalizing level with
  | nil => rfl
  | cons c rest ih =>
    rw [captureFields, typedBindersOfFields, ih]
    rfl

/-- The binder of a closure body binds the variables of its scope. -/
theorem typedBinders_closure {p : Pattern} {inner : Bindings} {captures : List Capture}
    (hinner : inner.vars = typedBinders p) :
    typedBinders (.ofTuple [p, (bindCaptures inner captures).1]) =
      Bindings.vars (bindCaptures inner captures).2 := by
  rw [bindCaptures_eq, Bindings.vars_append, hinner, ← typedBinders_captureFields]
  simp only [Pattern.ofTuple, typedBinders, typedBindersOfAll, List.append_nil]

theorem typedBinders_binder (S : Bindings) : typedBinders S.binder = S.vars := by
  have hvars : ∀ vars : Typed,
      typedBindersOfAll (vars.map fun e => .ofVar e.1 e.2) = vars := by
    intro vars
    induction vars with
    | nil => rfl
    | cons v vars ih =>
      rw [List.map_cons, typedBindersOfAll, ih]
      rfl
  rw [Bindings.binder, Pattern.ofTuple, typedBinders, hvars]

theorem patternKindsAgree_ofTuple {ps : List Pattern} (h : patternsKindsAgree ps = true) :
    patternKindsAgree (.ofTuple ps) = true := by
  rw [Pattern.ofTuple, patternKindsAgree, h, Bool.and_true, beq_iff_eq, Ty.erase, Ty.eraseAll_eq,
    List.flatMap_map]

theorem patternKindsAgree_binder (S : Bindings) : patternKindsAgree S.binder = true := by
  refine patternKindsAgree_ofTuple ?_
  induction S.vars with
  | nil => rfl
  | cons v vars ih =>
    rw [List.map_cons, patternsKindsAgree, ih]
    rfl

theorem patternKindsAgree_closure {p : Pattern} (hp : patternKindsAgree p = true)
    (inner : Bindings) (captures : List Capture) :
    patternKindsAgree (.ofTuple [p, (bindCaptures inner captures).1]) = true := by
  have hfields : ∀ (captures : List Capture) (level : Nat),
      fieldPatternsKindsAgree (captureFields level captures) = true := by
    intro captures
    induction captures with
    | nil => exact fun _ => rfl
    | cons c rest ih =>
      intro level
      rw [captureFields, fieldPatternsKindsAgree, ih]
      rfl
  refine patternKindsAgree_ofTuple ?_
  rw [patternsKindsAgree, patternsKindsAgree, patternsKindsAgree, hp, bindCaptures_eq,
    patternKindsAgree, hfields]
  rfl

theorem capturesOf_spec {S : Bindings} {names : List String} {captures : List Capture}
    (h : capturesOf S names = .ok captures) : ∀ c ∈ captures,
      c.v.name ∈ names ∧ (c.v, c.ty) ∈ S.vars ∧ Keyed.find? c.v.name S.context = some c.ty := by
  induction names generalizing captures with
  | nil =>
    cases h
    exact fun _ hc => nomatch hc
  | cons name rest ih =>
    simp only [capturesOf, Except.bind_ok] at h
    obtain ⟨⟨v, τ⟩, hv, more, hmore, h⟩ := h
    cases h
    intro c hc
    rcases List.mem_cons.1 hc with rfl | hc
    · have hname := (Bindings.resolve_ok hv).1
      obtain ⟨hmem, hfind⟩ := Bindings.resolve_spec hv
      exact ⟨hname ▸ List.mem_cons_self, hmem, hname ▸ hfind⟩
    · obtain ⟨hmem, hc⟩ := ih hmore c hc
      exact ⟨List.mem_cons_of_mem _ hmem, hc⟩

mutual

theorem map_typed : ∀ p : Staged.Pattern, p.typed.map (·.1) = p.binders.map (·.name)
  | .int .. | .range .. | .wildcard _ | .hole _ | .var .. => rfl
  | .list _ ps | .tuple _ ps => map_typedOfAll ps
  | .compound _ fields => map_typedOfFields fields

theorem map_typedOfAll : ∀ ps : List Staged.Pattern,
    (Staged.Pattern.typedOfAll ps).map (·.1) = (Staged.Pattern.bindersOfAll ps).map (·.name)
  | [] => rfl
  | p :: ps => by
    rw [Staged.Pattern.typedOfAll, Staged.Pattern.bindersOfAll, List.map_append, List.map_append,
      map_typed p, map_typedOfAll ps]

theorem map_typedOfFields : ∀ fields : List (String × Staged.Pattern),
    (Staged.Pattern.typedOfFields fields).map (·.1) =
      (Staged.Pattern.bindersOfFields fields).map (·.name)
  | [] => rfl
  | (_, p) :: rest => by
    rw [Staged.Pattern.typedOfFields, Staged.Pattern.bindersOfFields, List.map_append,
      List.map_append, map_typed p, map_typedOfFields rest]

end

/-- In the scope of a closure body a name that is captured has its type from outside the binder,
which does not bind it; any other name has it from the binder. -/
theorem Tracks.closure {Γ : Context} {S inner : Bindings} {t : Staged.Ty} {p : Staged.Pattern}
    {b : Staged.Term} {p' : Pattern} {captures : List Capture} (hS : Tracks table Γ S)
    (hcaptures : capturesOf S (Staged.Term.lambda t p b).freeNames.names = .ok captures)
    (hp : Mirrors table .empty p p' inner) :
    Tracks table (Γ.bind p) (bindCaptures inner captures).2 := by
  intro name τ hτ
  have hcontext : Bindings.context (bindCaptures inner captures).2 =
      (captures.map fun c => (c.v.name, c.ty)).reverse ++ inner.context := by
    rw [bindCaptures_eq]
    simp [Bindings.context, Function.comp_def]
  rw [hcontext, Keyed.find?_append] at hτ
  rw [Context.bind, Keyed.find?_append]
  cases hc : Keyed.find? name (captures.map fun c => (c.v.name, c.ty)).reverse with
  | some σ =>
    rw [hc, Option.some_or] at hτ
    cases hτ
    obtain ⟨c, hmem, hcname⟩ := List.mem_map.1 (List.mem_reverse.1 (Keyed.mem_of_find? hc))
    cases hcname
    obtain ⟨hfree, -, hfind⟩ := capturesOf_spec hcaptures c hmem
    have hhidden : Keyed.find? c.v.name p.typed.reverse = none := by
      cases hp : Keyed.find? c.v.name p.typed.reverse with
      | none => rfl
      | some u =>
        have hbound : c.v.name ∈ p.typed.map (·.1) :=
          List.mem_map.2 ⟨_, List.mem_reverse.1 (Keyed.mem_of_find? hp), rfl⟩
        rw [map_typed, ← NameSet.mem_names_ofList] at hbound
        exact absurd hbound (NameSet.mem_names_diff.1 hfree).2
    rw [hhidden, Option.none_or]
    exact hS hfind
  | none =>
    rw [hc, Option.none_or] at hτ
    obtain ⟨u, hu, hτ⟩ := hp.tracks Tracks.empty hτ
    rw [Context.bind, List.append_nil] at hu
    exact ⟨u, by rw [hu, Option.some_or], hτ⟩

end

end Flat

end Stagecraft
