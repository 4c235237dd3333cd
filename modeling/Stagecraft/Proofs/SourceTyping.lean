import Stagecraft.Proofs.ClosureTags
import Stagecraft.Proofs.EmissionSafety
import Stagecraft.Proofs.FlatTyping

/-!
# Types of the source

`Checks` is what a type checker sees to: nodes carry the types that their constructors determine,
where refinements and aliases do not count, and the parts of a node fit each other, the argument of
a call to the parameter included. Conversion keeps this. The flat form of a term that checks has a
type in the sense of the flat language (`hasType_of_flattened`), and a table all of whose
definitions check becomes a well-typed program (`wellTyped_of_converted`).
-/

namespace Stagecraft

open Flat (Bindings)

/-! ## Checking -/

namespace Staged

section

variable (table : Table)

mutual

/-- The nodes of a pattern carry the types that their constructors determine. Nothing is said of
list patterns, for which there is no code. -/
def Pattern.Checks : Pattern → Prop
  | .int info _ | .range info _ _ => info.ty.Agrees table .int
  | .compound info fields => ∃ ts, info.ty.Agrees table (.compound ts) ∧ FieldsCheck ts fields
  | .tuple info ps => info.ty.Agrees table (.tuple (ps.map (·.ty))) ∧ AllCheck ps
  | .list .. | .var .. | .wildcard _ | .hole _ => True

def Pattern.AllCheck : List Pattern → Prop
  | [] => True
  | p :: ps => p.Checks ∧ AllCheck ps

/-- The fields of a record pattern are fields of the record, and have the types they have there. -/
def Pattern.FieldsCheck (ts : List (String × Ty)) : List (String × Pattern) → Prop
  | [] => True
  | (key, p) :: rest =>
    (∃ t, Keyed.find? key ts = some t ∧ p.ty.Agrees table t) ∧ p.Checks ∧ FieldsCheck ts rest

end

mutual

/-- The nodes of a term carry the types that their constructors determine and their parts fit each
other, with variables that have types by name. No box is made, commands claim no slot, binders keep
none, and no local function captures a variable of the name that its tag is stored under. -/
def Term.Checks (Γ : Context) : Term → Prop
  | .literal t l => t.Agrees table (.ofLiteral l)
  | .array t kind es => t.Agrees table (.array kind) ∧
      (∀ e ∈ es, e.ty.Agrees table (.ofElement kind)) ∧ AllCheck Γ es
  | .list t es => (∃ u, t.Agrees table (.list u) ∧ ∀ e ∈ es, e.ty.Agrees table u) ∧ AllCheck Γ es
  | .compound t fields => t.Agrees table (.compound (fields.map fun f => (f.1, f.2.ty))) ∧
      (Keyed.keys fields).Nodup ∧ FieldsCheck Γ fields
  | .ref .. => False
  | .tuple t es => t.Agrees table (.tuple (es.map (·.ty))) ∧ AllCheck Γ es
  | .lambda t p b => t.Agrees table (.function p.ty b.ty) ∧ p.Checks table ∧
      "_" ∉ (Term.lambda t p b).freeNames.names ∧ b.Checks (Γ.bind p)
  | .apply t f a => f.ty.Agrees table (.function a.ty t) ∧ f.Checks Γ ∧ a.Checks Γ
  | .cond t c a b => c.ty.Agrees table .bool ∧ a.ty.Agrees table t ∧ b.ty.Agrees table t ∧
      c.Checks Γ ∧ a.Checks Γ ∧ b.Checks Γ
  | .letIn t p i b => .noDrop ∉ p.info.marks ∧ p.Checks table ∧ p.ty.Agrees table i.ty ∧
      t.Agrees table b.ty ∧ i.Checks Γ ∧ b.Checks (Γ.bind p)
  | .var t v => ∀ u, Keyed.find? v.name Γ = some u → t.Agrees table u
  | .call t name a => ∃ f, table.function? name = some f ∧ a.ty.Agrees table f.binder.ty ∧
      t.Agrees table f.result ∧ a.Checks Γ
  | .test t e p => t.Agrees table .bool ∧ p.Checks table ∧ p.ty.Agrees table e.ty ∧ e.Checks Γ
  | .command t _ => ∀ τ, Flat.Ty.ofStaged table t = .ok τ → τ.blank?.isSome
  -- refused by conversion
  | .quote .. | .splice .. | .hole _ => True

def Term.AllCheck (Γ : Context) : List Term → Prop
  | [] => True
  | t :: ts => t.Checks Γ ∧ AllCheck Γ ts

def Term.FieldsCheck (Γ : Context) : List (String × Term) → Prop
  | [] => True
  | (_, t) :: rest => t.Checks Γ ∧ FieldsCheck Γ rest

end

/-- The body of a function checks under its binder and has the type of its result. The function
keeps no slots. -/
structure Function.Checks (f : Function) : Prop where
  drops : .noDrop ∉ f.marks
  binderDrops : .noDrop ∉ f.binder.info.marks
  binder : f.binder.Checks table
  body : f.body.Checks table (Context.bind [] f.binder)
  result : f.body.ty.Agrees table f.result

/-- A function of a table is found under its name. -/
theorem Table.function?_of_mem {f : Function} (hf : .function f ∈ table.definitions) :
    table.function? f.name = some f := by
  have hfind : table.find? f.name = some (.function f) := Flat.find?_of_nodup table.nodup hf
  rw [function?, hfind]

/-- Every function of a table checks. -/
def Table.Checks : Prop := ∀ f, .function f ∈ table.definitions → f.Checks table

end

end Staged

namespace Flat

open Staged (Table Context)

/-! ## Types -/

section

variable {table : Table}

theorem fieldTysWith_ok {ofAlias : DefName → Except Error Ty} {ts : List (String × Staged.Ty)}
    {τs : List (String × Ty)} (h : fieldTysWith ofAlias ts = .ok τs) :
    List.Forall₂ (fun t τ => t.1 = τ.1 ∧ tyWith ofAlias t.2 = .ok τ.2) ts τs := by
  induction ts generalizing τs with
  | nil =>
    cases h
    exact .nil
  | cons t ts ih =>
    obtain ⟨key, t⟩ := t
    simp only [fieldTysWith, Except.bind_ok] at h
    obtain ⟨τ, hτ, rest, hrest, h⟩ := h
    cases h
    exact .cons ⟨rfl, hτ⟩ (ih hrest)

theorem exists_of_ofStaged_list {t : Staged.Ty} {τ : Ty} (h : Ty.ofStaged table (.list t) = .ok τ) :
    ∃ σ, τ = .list σ ∧ Ty.ofStaged table t = .ok σ := by
  obtain ⟨ofAlias, heq⟩ := exists_tyWith table
  rw [heq] at h ⊢
  simp only [tyWith, Except.bind_ok] at h
  obtain ⟨σ, hσ, h⟩ := h
  cases h
  exact ⟨σ, rfl, hσ⟩

theorem exists_of_ofStaged_compound {ts : List (String × Staged.Ty)} {τ : Ty}
    (h : Ty.ofStaged table (.compound ts) = .ok τ) : ∃ τs, τ = .compound τs ∧
      List.Forall₂ (fun t τ => t.1 = τ.1 ∧ Ty.ofStaged table t.2 = .ok τ.2) ts τs := by
  obtain ⟨ofAlias, heq⟩ := exists_tyWith table
  rw [heq] at h ⊢
  simp only [tyWith, Except.bind_ok] at h
  obtain ⟨τs, hτs, h⟩ := h
  cases h
  exact ⟨τs, rfl, fieldTysWith_ok hτs⟩

theorem exists_of_ofStaged_function {p r : Staged.Ty} {τ : Ty}
    (h : Ty.ofStaged table (.function p r) = .ok τ) :
    ∃ σ ρ, τ = .function σ ρ ∧ Ty.ofStaged table p = .ok σ ∧ Ty.ofStaged table r = .ok ρ := by
  obtain ⟨ofAlias, heq⟩ := exists_tyWith table
  rw [heq] at h ⊢
  simp only [tyWith, Except.bind_ok] at h
  obtain ⟨σ, hσ, ρ, hρ, h⟩ := h
  cases h
  exact ⟨σ, ρ, rfl, hσ, hρ⟩

theorem ofStaged_scalar_eq (table : Table) (s : Scalar) :
    Ty.ofStaged table (.scalar s) = .ok (.scalar s) := by
  obtain ⟨ofAlias, heq⟩ := exists_tyWith table
  rw [heq, tyWith]

theorem ofStaged_array_eq (table : Table) (kind : ArrayKind) :
    Ty.ofStaged table (.array kind) = .ok (.array kind) := by
  obtain ⟨ofAlias, heq⟩ := exists_tyWith table
  rw [heq, tyWith]

/-- What a type agrees with has the same flat form. -/
theorem eq_of_agrees {t u : Staged.Ty} {τ σ : Ty} (h : t.Agrees table u)
    (hτ : Ty.ofStaged table t = .ok τ) (hσ : Ty.ofStaged table u = .ok σ) : τ = σ :=
  Except.ok.inj (hτ.symm.trans (h.trans hσ))

/-- Types that have flat forms have one each. -/
theorem eq_of_forall₂_ofStaged {ts : List Staged.Ty} {τs σs : List Ty}
    (hτs : List.Forall₂ (fun t τ => Ty.ofStaged table t = .ok τ) ts τs)
    (hσs : List.Forall₂ (fun t τ => Ty.ofStaged table t = .ok τ) ts σs) : τs = σs := by
  induction hτs generalizing σs with
  | nil => exact (List.forall₂_nil_left_iff.1 hσs).symm
  | cons h _ ih =>
    obtain ⟨σ, rest, h', hrest, rfl⟩ := List.forall₂_cons_left_iff.1 hσs
    rw [ih hrest, Except.ok.inj (h.symm.trans h')]

/-- As `eq_of_forall₂_ofStaged`, for the fields of a record type. -/
theorem eq_of_forall₂_fields {ts : List (String × Staged.Ty)} {τs σs : List (String × Ty)}
    (hτs : List.Forall₂ (fun t τ => t.1 = τ.1 ∧ Ty.ofStaged table t.2 = .ok τ.2) ts τs)
    (hσs : List.Forall₂ (fun t τ => t.1 = τ.1 ∧ Ty.ofStaged table t.2 = .ok τ.2) ts σs) :
    τs = σs := by
  induction hτs generalizing σs with
  | nil => exact (List.forall₂_nil_left_iff.1 hσs).symm
  | cons h _ ih =>
    obtain ⟨σ, rest, h', hrest, rfl⟩ := List.forall₂_cons_left_iff.1 hσs
    rw [ih hrest]
    exact congrArg (· :: rest)
      (Prod.ext (h.1.symm.trans h'.1) (Except.ok.inj (h.2.symm.trans h'.2)))

/-- The flat form of a record type has the flat form of every field under its key. -/
theorem exists_find?_of_forall₂ {ts : List (String × Staged.Ty)} {τs : List (String × Ty)}
    (h : List.Forall₂ (fun t τ => t.1 = τ.1 ∧ Ty.ofStaged table t.2 = .ok τ.2) ts τs)
    {key : String} {t : Staged.Ty} (ht : Keyed.find? key ts = some t) :
    ∃ τ, Keyed.find? key τs = some τ ∧ Ty.ofStaged table t = .ok τ := by
  induction h with
  | nil => cases ht
  | @cons f g ts τs hfg _ ih =>
    obtain ⟨key', u⟩ := f
    obtain ⟨_, σ⟩ := g
    obtain ⟨rfl, hσ⟩ := hfg
    rw [Keyed.find?] at ht ⊢
    split at ht
    · next hkey =>
      cases ht
      exact ⟨σ, if_pos hkey, hσ⟩
    · next hkey =>
      rw [if_neg hkey]
      exact ih ht

/-! ## Patterns -/

mutual

/-- The scope inside a binder has the variables that its flat form binds at the end. -/
theorem Mirrors.types : ∀ {p : Staged.Pattern} {S S' : Bindings} {p' : Pattern},
    Mirrors table S p p' S' → S'.types = S.types ++ p'.types
  | .int .., _, _, _, .int _ => (List.append_nil _).symm
  | .range .., _, _, _, .range _ => (List.append_nil _).symm
  | .list .., _, _, _, .list _ hps => hps.types
  | .compound .., _, _, _, .compound _ hfields => hfields.types
  | .tuple .., _, _, _, .tuple _ hps => hps.types
  | .var .., _, _, _, .var _ => List.map_append
  | .wildcard .., _, _, _, .wildcard _ => (List.append_nil _).symm

theorem MirrorsAll.types : ∀ {ps : List Staged.Pattern} {S S' : Bindings} {ps' : List Pattern},
    MirrorsAll table S ps ps' S' → S'.types = S.types ++ Pattern.typesOfAll ps'
  | [], _, _, _, .nil => (List.append_nil _).symm
  | _ :: _, _, _, _, .cons hp hps => by
    rw [hps.types, hp.types, Pattern.typesOfAll, List.append_assoc]

theorem MirrorsFields.types : ∀ {fields : List (String × Staged.Pattern)} {S S' : Bindings}
    {fields' : List (String × Pattern)}, MirrorsFields table S fields fields' S' →
      S'.types = S.types ++ Pattern.typesOfFields fields'
  | [], _, _, _, .nil => (List.append_nil _).symm
  | _ :: _, _, _, _, .cons hp hrest => by
    rw [hrest.types, hp.types, Pattern.typesOfFields, List.append_assoc]

end

theorem length_types (S : Bindings) : S.types.length = S.length := by
  rw [Bindings.types, List.length_map, Scope.length]

/-- The scope inside a binder is longer by what its flat form binds. -/
theorem Mirrors.length_eq {p : Staged.Pattern} {S S' : Bindings} {p' : Pattern}
    (h : Mirrors table S p p' S') : S'.length = S.length + p'.types.length := by
  rw [← length_types, h.types, List.length_append, length_types]

mutual

/-- The flat form of a pattern that checks is well typed. -/
theorem Mirrors.wellTyped : ∀ {p : Staged.Pattern} {S S' : Bindings} {p' : Pattern},
    Mirrors table S p p' S' → p.Checks table → p'.WellTyped S.length
  | .int .., _, _, _, .int hinfo, h => eq_of_agrees h hinfo.ty (ofStaged_scalar_eq table _)
  | .range .., _, _, _, .range hinfo, h => eq_of_agrees h hinfo.ty (ofStaged_scalar_eq table _)
  | .list .., _, _, _, .list _ _, _ => trivial
  | .compound .., _, _, _, .compound hinfo hfields, ⟨ts, hts, h⟩ => by
    obtain ⟨τs, hτs, hfieldTys⟩ := exists_of_ofStaged_compound (hts ▸ hinfo.ty)
    exact ⟨τs, hτs, hfields.wellTyped hfieldTys h⟩
  | .tuple .., _, _, _, .tuple hinfo hps, ⟨ht, h⟩ => by
    obtain ⟨τs, hτs, htys⟩ := ofStaged_tuple (ht ▸ hinfo.ty)
    exact ⟨hτs.trans (congrArg Ty.tuple (eq_of_forall₂_ofStaged htys hps.tys)), hps.wellTyped h⟩
  | .var .., _, _, _, .var _, _ => rfl
  | .wildcard .., _, _, _, .wildcard _, _ => trivial

theorem MirrorsAll.wellTyped : ∀ {ps : List Staged.Pattern} {S S' : Bindings}
    {ps' : List Pattern}, MirrorsAll table S ps ps' S' → Staged.Pattern.AllCheck table ps →
      Pattern.AllWellTyped S.length ps'
  | [], _, _, _, .nil, _ => trivial
  | _ :: _, _, _, _, .cons hp hps, h =>
    ⟨hp.wellTyped h.1, hp.length_eq ▸ hps.wellTyped h.2⟩

theorem MirrorsFields.wellTyped : ∀ {fields : List (String × Staged.Pattern)} {S S' : Bindings}
    {fields' : List (String × Pattern)} {ts : List (String × Staged.Ty)}
    {τs : List (String × Ty)}, MirrorsFields table S fields fields' S' →
      List.Forall₂ (fun t τ => t.1 = τ.1 ∧ Ty.ofStaged table t.2 = .ok τ.2) ts τs →
      Staged.Pattern.FieldsCheck table ts fields → Pattern.FieldsWellTyped τs S.length fields'
  | [], _, _, _, _, _, .nil, _, _ => trivial
  | _ :: _, _, _, _, _, _, .cons hp hrest, hτs, ⟨⟨t, ht, hagrees⟩, h, hfields⟩ => by
    obtain ⟨τ, hτ, hflat⟩ := exists_find?_of_forall₂ hτs ht
    exact ⟨hτ.trans (congrArg some (eq_of_agrees hagrees hp.ty hflat).symm), hp.wellTyped h,
      hp.length_eq ▸ hrest.wellTyped hτs hfields⟩

end

/-! ## Terms -/

/-- A variable in scope has its type at its level. -/
theorem Bindings.types_of_mem_vars {S : Bindings} {v : Var} {τ : Ty} (h : (v, τ) ∈ S.vars) :
    S.types[v.level]? = some τ := by
  obtain ⟨⟨b, level⟩, hb, heq⟩ := List.mem_map.1 h
  cases heq
  rw [types, List.getElem?_map, List.mk_mem_zipIdx_iff_getElem?.1 hb]
  rfl

/-- What a local function captures from a scope can be captured. -/
theorem capturable_of_capturesOf {S : Bindings} {names : NameSet} {captures : List Capture}
    (h : capturesOf S names.names = .ok captures) (htag : "_" ∉ names.names) :
    Capturable S.types captures where
  inScope c hc := Bindings.types_of_mem_vars (capturesOf_spec h c hc).2.1
  nodup := names_capturesOf h ▸ names.nodup
  noTag := names_capturesOf h ▸ htag

theorem types_bindCaptures (S : Bindings) (captures : List Capture) :
    Bindings.types (bindCaptures S captures).2 = S.types ++ captures.map (·.ty) := by
  simp [bindCaptures_eq, Bindings.types, Function.comp_def]

/-- The binder of the body of a local function. -/
theorem Mirrors.closureBinder_eq {p : Staged.Pattern} {inner : Bindings} {p' : Pattern}
    (h : Mirrors table .empty p p' inner) (captures : List Capture) :
    Pattern.ofTuple [p', (bindCaptures inner captures).1] = closureBinder p' captures := by
  have hlength : inner.length = p'.types.length := h.length_eq.trans (Nat.zero_add _)
  rw [bindCaptures_eq, closureBinder, hlength]

theorem ofTuple_pair (a f : Term) :
    Term.ofTuple [a, f] = .tuple (.tuple [a.ty, f.ty]) [a, f] := rfl

variable {P : Program}

theorem Flattened.ty {S : Bindings} {t : Staged.Term} {t' : Term} (h : Flattened table P S t t') :
    Ty.ofStaged table t.ty = .ok t'.ty := by
  cases h <;> assumption

theorem FlattenedAll.tys {S : Bindings} {ts : List Staged.Term} {ts' : List Term}
    (h : FlattenedAll table P S ts ts') :
    List.Forall₂ (fun t τ => Ty.ofStaged table t = .ok τ) (ts.map (·.ty)) (ts'.map (·.ty)) := by
  induction ts generalizing ts' with
  | nil =>
    cases h
    exact .nil
  | cons t ts ih =>
    cases h with
    | cons ht hts => exact .cons ht.ty (ih hts)

/-- Terms that agree with one type have its flat form. -/
theorem FlattenedAll.ty_eq {S : Bindings} {ts : List Staged.Term} {ts' : List Term} {u : Staged.Ty}
    {σ : Ty} (h : FlattenedAll table P S ts ts') (hagree : ∀ t ∈ ts, t.ty.Agrees table u)
    (hσ : Ty.ofStaged table u = .ok σ) : ∀ t' ∈ ts', t'.ty = σ := by
  induction ts generalizing ts' with
  | nil =>
    cases h
    exact List.forall_mem_nil _
  | cons t ts ih =>
    cases h with
    | cons ht hts =>
      refine List.forall_mem_cons.2 ⟨eq_of_agrees (hagree t List.mem_cons_self) ht.ty hσ, ?_⟩
      exact ih hts fun t ht => hagree t (List.mem_cons_of_mem _ ht)

theorem FlattenedFields.tys {S : Bindings} {fields : List (String × Staged.Term)}
    {fields' : List (String × Term)} (h : FlattenedFields table P S fields fields') :
    List.Forall₂ (fun t τ => t.1 = τ.1 ∧ Ty.ofStaged table t.2 = .ok τ.2)
      (fields.map fun f => (f.1, f.2.ty)) (fields'.map fun f => (f.1, f.2.ty)) := by
  induction fields generalizing fields' with
  | nil =>
    cases h
    exact .nil
  | cons f fields ih =>
    cases h with
    | cons ht hrest => exact .cons ⟨rfl, ht.ty⟩ (ih hrest)

theorem FlattenedFields.keys_eq {S : Bindings} {fields : List (String × Staged.Term)}
    {fields' : List (String × Term)} (h : FlattenedFields table P S fields fields') :
    fields'.map (·.1) = Keyed.keys fields := by
  induction fields generalizing fields' with
  | nil =>
    cases h
    rfl
  | cons f fields ih =>
    obtain ⟨key, t⟩ := f
    cases h with
    | cons _ hrest => exact congrArg (key :: ·) (ih hrest)

/-- Terms of one type each have it. -/
theorem HaveTypes.of_ty_eq {takes : DefName → Ty → Ty → Prop} {Γ : List Ty} {ts : List Term}
    {τs : List Ty} {σ : Ty} (h : HaveTypes P takes Γ ts τs) (hσ : ∀ t ∈ ts, t.ty = σ) :
    ∀ t ∈ ts, HasType P takes Γ t σ := by
  induction ts generalizing τs with
  | nil => exact List.forall_mem_nil _
  | cons t ts ih =>
    cases h with
    | cons ht hts =>
      have hty := ht.ty_eq.symm.trans (hσ t List.mem_cons_self)
      refine List.forall_mem_cons.2 ⟨hty ▸ ht, ?_⟩
      exact ih hts fun t ht => hσ t (List.mem_cons_of_mem _ ht)

variable (table) in
/-- What the functions of a table can be called with. -/
def Takes (name : DefName) (σ τ : Ty) : Prop := ∃ f, table.function? name = some f ∧
  Ty.ofStaged table f.binder.ty = .ok σ ∧ Ty.ofStaged table f.result = .ok τ

mutual

/-- The flat form of a term that checks has a type. -/
theorem hasType_of_flattened (hdispatcher : table.function? dispatcher = none) :
    ∀ {t : Staged.Term} {Γ : Context} {S : Bindings} {t' : Term}, Flattened table P S t t' →
      t.Checks table Γ → Tracks table Γ S → HasType P (Takes table) S.types t' t'.ty
  | .literal .., Γ, S, _, .literal hτ, h, hS => by
    obtain rfl := eq_of_agrees h hτ (ofStaged_scalar_eq table _)
    exact .literal
  | .array _ kind es, Γ, S, _, .array hτ hes, ⟨ht, htys, h⟩, hS => by
    obtain rfl := eq_of_agrees ht hτ (ofStaged_array_eq table _)
    refine .array ?_
    exact (haveTypes_of_flattened hdispatcher (l := es) hes h hS).of_ty_eq
      (hes.ty_eq htys (ofStaged_scalar_eq table _))
  | .list _ es, Γ, S, _, .list hτ hes, ⟨⟨u, hu, htys⟩, h⟩, hS => by
    obtain ⟨σ, rfl, hσ⟩ := exists_of_ofStaged_list (hu ▸ hτ)
    refine .list ?_
    exact (haveTypes_of_flattened hdispatcher (l := es) hes h hS).of_ty_eq (hes.ty_eq htys hσ)
  | .compound _ fields, Γ, S, _, .compound hτ hfields, ⟨ht, hnodup, h⟩, hS => by
    obtain ⟨τs, rfl, htys⟩ := exists_of_ofStaged_compound (ht ▸ hτ)
    obtain rfl := eq_of_forall₂_fields htys hfields.tys
    exact .compound (hfields.keys_eq ▸ hnodup)
      (fieldsHaveTypes_of_flattened hdispatcher (l := fields) hfields h hS)
  | .tuple _ es, Γ, S, _, .tuple hτ hes, ⟨ht, h⟩, hS => by
    obtain ⟨τs, rfl, htys⟩ := ofStaged_tuple (ht ▸ hτ)
    obtain rfl := eq_of_forall₂_ofStaged htys hes.tys
    exact .tuple (haveTypes_of_flattened hdispatcher (l := es) hes h hS)
  | .lambda t p b, Γ, S, _, .lambda hτ hcaptures hp hb hbody', ⟨ht, hpc, htag, hbc⟩, hS => by
    obtain ⟨_, _, heq, hσ, hρ⟩ := exists_of_ofStaged_function (ht ▸ hτ)
    cases heq
    obtain rfl : _ = _ := Except.ok.inj (hσ.symm.trans hp.ty)
    obtain rfl : _ = _ := Except.ok.inj (hρ.symm.trans hb.ty)
    have hbody := hasType_of_flattened hdispatcher (t := b) hb hbc (hS.closure hcaptures hp)
    rw [types_bindCaptures, hp.types] at hbody
    rw [hp.closureBinder_eq] at hbody'
    exact .closure (capturable_of_capturesOf hcaptures htag) (hp.wellTyped hpc) hbody' hbody
  | .apply _ f a, Γ, S, _, .apply hτ hf ha, ⟨ht, hfc, hac⟩, hS => by
    have hf' := hasType_of_flattened hdispatcher (t := f) hf hfc hS
    have ha' := hasType_of_flattened hdispatcher (t := a) ha hac hS
    obtain ⟨σ, ρ, heq, hσ, hρ⟩ := exists_of_ofStaged_function (ht ▸ hf.ty)
    obtain rfl := Except.ok.inj (hσ.symm.trans ha.ty)
    obtain rfl := Except.ok.inj (hρ.symm.trans hτ)
    rw [heq] at hf'
    rw [ofTuple_pair, heq]
    exact .apply ha' hf'
  | .cond _ c a b, Γ, S, _, .cond hτ hc ha hthen hb helse, ⟨hct, hat, hbt, hcc, hac, hbc⟩, hS => by
    have hc' := hasType_of_flattened hdispatcher (t := c) hc hcc hS
    have ha' := hasType_of_flattened hdispatcher (t := a) ha hac hS
    have hb' := hasType_of_flattened hdispatcher (t := b) hb hbc hS
    rw [eq_of_agrees hct hc.ty (ofStaged_scalar_eq table _)] at hc'
    rw [eq_of_agrees hat ha.ty hτ] at ha'
    rw [eq_of_agrees hbt hb.ty hτ] at hb'
    exact .branch hc' hthen ha' helse hb'
  | .letIn _ p i b, Γ, S, _, .letIn hτ hi hp hb, ⟨hdrop, hpc, hpi, htb, hic, hbc⟩, hS => by
    have hi' := hasType_of_flattened hdispatcher (t := i) hi hic hS
    have hb' := hasType_of_flattened hdispatcher (t := b) hb hbc (hp.tracks hS)
    rw [← eq_of_agrees hpi hp.ty hi.ty] at hi'
    rw [← eq_of_agrees htb hτ hb.ty, hp.types] at hb'
    exact .letIn (hp.has_noDrop hdrop) (length_types S ▸ hp.wellTyped hpc) hi' hb'
  | .var .., Γ, S, _, .var hτ hv, h, hS => by
    obtain ⟨hmem, hfind⟩ := Bindings.resolve_spec hv
    obtain ⟨u, hu, hσ⟩ := hS hfind
    obtain rfl := eq_of_agrees (h u hu) hτ hσ
    exact .var (Bindings.types_of_mem_vars hmem)
  | .call _ name a, Γ, S, _, .call hτ _ ha, ⟨f, hf, hparam, hresult, hac⟩, hS => by
    have ha' := hasType_of_flattened hdispatcher (t := a) ha hac hS
    refine .call ?_ ⟨f, hf, hparam ▸ ha.ty, hresult ▸ hτ⟩ ha'
    rintro rfl
    rw [hdispatcher] at hf
    cases hf
  | .test _ e p, Γ, S, _, .test hτ he hp, ⟨ht, hpc, hpe, hec⟩, hS => by
    have he' := hasType_of_flattened hdispatcher (t := e) he hec hS
    rw [← eq_of_agrees hpe hp.ty he.ty] at he'
    obtain rfl := eq_of_agrees ht hτ (ofStaged_scalar_eq table _)
    exact .test (hp.wellTyped hpc) he'
  | .command .., Γ, S, _, .command hτ, h, hS => by
    obtain ⟨w, hw⟩ := Option.isSome_iff_exists.1 (h _ hτ)
    exact .command hw

theorem haveTypes_of_flattened (hdispatcher : table.function? dispatcher = none) :
    ∀ {l : List Staged.Term} {Γ : Context} {S : Bindings} {ts' : List Term},
      FlattenedAll table P S l ts' → Staged.Term.AllCheck table Γ l → Tracks table Γ S →
        HaveTypes P (Takes table) S.types ts' (ts'.map (·.ty))
  | [], _, _, _, .nil, _, _ => .nil
  | t :: ts, _, _, _, .cons ht hts, h, hS =>
    .cons (hasType_of_flattened hdispatcher (t := t) ht h.1 hS)
      (haveTypes_of_flattened hdispatcher (l := ts) hts h.2 hS)

theorem fieldsHaveTypes_of_flattened (hdispatcher : table.function? dispatcher = none) :
    ∀ {l : List (String × Staged.Term)} {Γ : Context} {S : Bindings}
      {fields' : List (String × Term)}, FlattenedFields table P S l fields' →
      Staged.Term.FieldsCheck table Γ l → Tracks table Γ S →
        FieldsHaveTypes P (Takes table) S.types fields' (fields'.map fun f => (f.1, f.2.ty))
  | [], _, _, _, .nil, _, _ => .nil
  | (_, t) :: rest, _, _, _, .cons ht hrest, h, hS =>
    .cons (hasType_of_flattened hdispatcher (t := t) ht h.1 hS)
      (fieldsHaveTypes_of_flattened hdispatcher (l := rest) hrest h.2 hS)

end

/-! ## Programs -/

/-- The flat form of a function that checks is well typed. -/
theorem FunctionOf.wellTyped (hdispatcher : table.function? dispatcher = none) {f : Staged.Function}
    {f' : Function} {scope : Bindings} (h : FunctionOf table P f f' scope) (hf : f.Checks table) :
    f'.WellTyped P (Takes table) where
  drops := has_of_ofStagedAll h.marks hf.drops
  binderDrops := h.binder.has_noDrop hf.binderDrops
  binder := h.binder.wellTyped hf.binder
  body := by
    have hbody := hasType_of_flattened hdispatcher h.body hf.body (h.binder.tracks .empty)
    have hscope : scope.types = f'.binder.types := h.binder.types
    rwa [hscope, eq_of_agrees hf.result h.body.ty h.result] at hbody

/-- A table that checks is converted to a well-typed program. -/
theorem wellTyped_of_converted (hdispatcher : table.function? dispatcher = none)
    (h : Converted table P) (hchecks : table.Checks) : P.WellTyped (Takes table) := by
  rintro name σ τ ⟨f, hf, hσ, hτ⟩
  have hfind : table.find? name = some (.function f) := by
    unfold Staged.Table.function? at hf
    split at hf
    · next hfind =>
      cases hf
      exact hfind
    · cases hf
  obtain ⟨hmem, rfl⟩ := Staged.Table.find?_function hfind
  cases hb : f.has .builtin with
  | false =>
    obtain ⟨f', scope, hf', hof⟩ := h.function hmem hb
    refine .inl ⟨f', hf', hof.wellTyped hdispatcher (hchecks f hmem), ?_, ?_⟩
    · exact Except.ok.inj (hof.binder.ty.symm.trans hσ)
    · exact Except.ok.inj (hof.result.symm.trans hτ)
  | true =>
    obtain ⟨b, hfind', hof⟩ := h.builtin hmem hb
    refine .inr ⟨b, hfind', ?_, ?_⟩
    · exact Except.ok.inj (hof.param.symm.trans hσ)
    · exact Except.ok.inj (hof.result.symm.trans hτ)

/-- Every function of a converted table takes something. -/
theorem Converted.exists_takes (h : Converted table P) {f : Staged.Function}
    (hf : .function f ∈ table.definitions) :
    ∃ σ τ, Takes table f.name σ τ ∧ Ty.ofStaged table f.binder.ty = .ok σ := by
  have hfind := table.function?_of_mem hf
  cases hb : f.has .builtin with
  | false =>
    obtain ⟨f', scope, -, hof⟩ := h.function hf hb
    exact ⟨_, _, ⟨f, hfind, hof.binder.ty, hof.result⟩, hof.binder.ty⟩
  | true =>
    obtain ⟨b, -, hof⟩ := h.builtin hf hb
    exact ⟨_, _, ⟨f, hfind, hof.param, hof.result⟩, hof.param⟩

end

end Flat

end Stagecraft
