import Stagecraft.Proofs.Conversion

/-!
# Types of the flat language

Every node of a flat term carries a type. `HasType` says that these types fit together: a node has
the type that its constructor determines from its parts, an occurrence that of its variable, and an
argument that of the parameter. The body of a local function and the clauses of a conditional are
definitions of the program, and their typing is part of that of the term they were split off from.
What definitions can be called by name is a parameter, since a definition may call itself.

`Inhabits` is the corresponding property of values. A function value has a body of its type in the
program, and values of the types of the captured variables.
-/

namespace Stagecraft.Flat

/-! ## Patterns -/

namespace Pattern

mutual

/-- The types of the variables that a pattern binds, from left to right. -/
def types : Pattern → List Ty
  | .int .. | .range .. | .wildcard _ => []
  | .list _ ps | .tuple _ ps => typesOfAll ps
  | .compound _ fields => typesOfFields fields
  | .var info _ => [info.ty]

/-- The types of the variables that several patterns bind. -/
def typesOfAll : List Pattern → List Ty
  | [] => []
  | p :: ps => p.types ++ typesOfAll ps

/-- The types of the variables that the fields of a record pattern bind. -/
def typesOfFields : List (String × Pattern) → List Ty
  | [] => []
  | (_, p) :: rest => p.types ++ typesOfFields rest

end

mutual

/-- The nodes of a pattern have the types of what they are matched against, and its variables are
numbered from a level on, from left to right. Nothing is said about list patterns, for which there
is no code. -/
def WellTyped (level : Nat) : Pattern → Prop
  | .int info _ | .range info _ _ => info.ty = .int
  | .list .. | .wildcard _ => True
  | .compound info fields => ∃ τs, info.ty = .compound τs ∧ FieldsWellTyped τs level fields
  | .tuple info ps => info.ty = .tuple (ps.map ty) ∧ AllWellTyped level ps
  | .var _ v => v.level = level

/-- Several patterns are well typed, each from the level that the one before leaves. -/
def AllWellTyped (level : Nat) : List Pattern → Prop
  | [] => True
  | p :: ps => p.WellTyped level ∧ AllWellTyped (level + p.types.length) ps

/-- The fields of a record pattern are well typed and have the types that the record has there. -/
def FieldsWellTyped (τs : List (String × Ty)) (level : Nat) : List (String × Pattern) → Prop
  | [] => True
  | (key, p) :: rest => Keyed.find? key τs = some p.ty ∧ p.WellTyped level ∧
      FieldsWellTyped τs (level + p.types.length) rest

end

end Pattern

/-- The binder of the body of a local function: its own one and that of the captured variables. -/
def closureBinder (p : Pattern) (captures : List Capture) : Pattern :=
  .ofTuple [p, .compound ⟨[], capturesTy captures⟩ (captureFields p.types.length captures)]

/-- The types of the variables in scope, by level. -/
def Bindings.types (scope : Bindings) : List Ty := scope.items.map (·.ty)

/-- The binder of a clause of a conditional is well typed. -/
theorem Bindings.wellTyped_binder (S : Bindings) : S.binder.WellTyped 0 := by
  have hvars : ∀ (bs : List Binding) (k : Nat), Pattern.AllWellTyped k
      (((bs.zipIdx k).map fun e => ((⟨e.1.name, e.2⟩ : Var), e.1.ty)).map fun e =>
        Pattern.ofVar e.1 e.2) := by
    intro bs
    induction bs with
    | nil => exact fun _ => trivial
    | cons b bs ih => exact fun k => ⟨rfl, ih (k + 1)⟩
  exact ⟨rfl, hvars S.items 0⟩

/-- The binder of a clause of a conditional binds the variables in scope. -/
theorem Bindings.types_binder (S : Bindings) : S.binder.types = S.types := by
  have hvars : ∀ (bs : List Binding) (k : Nat), Pattern.typesOfAll
      (((bs.zipIdx k).map fun e => ((⟨e.1.name, e.2⟩ : Var), e.1.ty)).map fun e =>
        Pattern.ofVar e.1 e.2) = bs.map (·.ty) := by
    intro bs
    induction bs with
    | nil => exact fun _ => rfl
    | cons b bs ih => exact fun k => congrArg (b.ty :: ·) (ih (k + 1))
  exact hvars S.items 0

/-- The binder of a clause of a conditional takes a tuple of the variables in scope. -/
theorem Bindings.ty_binder (S : Bindings) : S.binder.ty = .tuple S.types := by
  change Ty.tuple ((S.vars.map fun e => Pattern.ofVar e.1 e.2).map Pattern.ty) = _
  rw [types, vars, List.map_map, List.map_map]
  have hitems : S.items.zipIdx.map (Binding.ty ∘ Prod.fst) = S.items.map (·.ty) := by
    rw [← List.map_map, List.zipIdx_map_fst]
  exact congrArg Ty.tuple hitems

/-- The argument of a clause of a conditional is a tuple of the variables in scope. -/
theorem Bindings.ty_argument (S : Bindings) : S.argument.ty = .tuple S.types := by
  rw [← S.ty_binder]
  change Ty.tuple ((S.vars.map fun e => Term.var e.2 e.1).map Term.ty) =
    .tuple ((S.vars.map fun e => Pattern.ofVar e.1 e.2).map Pattern.ty)
  rw [List.map_map, List.map_map]
  rfl

/-- A record pattern of captured variables is well typed on a record that has all of them. -/
theorem wellTyped_captureFields {τs : List (String × Ty)} {captures : List Capture}
    (h : ∀ c ∈ captures, Keyed.find? c.v.name τs = some c.ty) (level : Nat) :
    Pattern.FieldsWellTyped τs level (captureFields level captures) := by
  induction captures generalizing level with
  | nil => trivial
  | cons c captures ih =>
    have hrest := fun c hc => h c (List.mem_cons_of_mem _ hc)
    exact ⟨h c List.mem_cons_self, rfl, ih hrest (level + 1)⟩

theorem typesOfFields_captureFields (captures : List Capture) (level : Nat) :
    Pattern.typesOfFields (captureFields level captures) = captures.map (·.ty) := by
  induction captures generalizing level with
  | nil => rfl
  | cons c captures ih => exact congrArg (c.ty :: ·) (ih (level + 1))

/-! ## Terms -/

section

variable (P : Program) (takes : DefName → Ty → Ty → Prop)

/-- Variables that a local function can capture: they are in scope, and their names are fields of
one record beside the tag. -/
structure Capturable (Γ : List Ty) (captures : List Capture) : Prop where
  inScope : ∀ c ∈ captures, Γ[c.v.level]? = some c.ty
  nodup : (captures.map fun c => c.v.name).Nodup
  noTag : "_" ∉ captures.map fun c => c.v.name

mutual

/-- A term has a type where the variables in scope have the types `Γ`, by level, and `takes` says
which definitions can be called with what. -/
inductive HasType : List Ty → Term → Ty → Prop
  | literal {Γ l} : HasType Γ (.literal (.scalar l.scalar) l) (.scalar l.scalar)
  | array {Γ kind es} : (∀ e ∈ es, HasType Γ e (.scalar kind.scalar)) →
      HasType Γ (.array (.array kind) kind es) (.array kind)
  | list {Γ σ es} : (∀ e ∈ es, HasType Γ e σ) → HasType Γ (.list (.list σ) es) (.list σ)
  | compound {Γ fields τs} : (fields.map (·.1)).Nodup → FieldsHaveTypes Γ fields τs →
      HasType Γ (.compound (.compound τs) fields) (.compound τs)
  | tuple {Γ es τs} : HaveTypes Γ es τs → HasType Γ (.tuple (.tuple τs) es) (.tuple τs)
  | closure {Γ tag p captures τ b} : Capturable Γ captures → p.WellTyped 0 →
      P.HasBody tag (closureBinder p captures) τ b →
      HasType (p.types ++ captures.map (·.ty)) b τ →
      HasType Γ (.closure (.function p.ty τ) tag captures) (.function p.ty τ)
  | branch {S τ c a b thenName elseName} : HasType S.types c (.scalar .bool) →
      P.HasClause thenName S τ a (some 1) → HasType S.types a τ →
      P.HasClause elseName S τ b none → HasType S.types b τ →
      HasType S.types (.branch τ c S.argument thenName elseName) τ
  | letIn {Γ p i b τ} : p.has .noDrop = false → p.WellTyped Γ.length → HasType Γ i p.ty →
      HasType (Γ ++ p.types) b τ → HasType Γ (.letIn τ p i b) τ
  | var {Γ v τ} : Γ[v.level]? = some τ → HasType Γ (.var τ v) τ
  | call {Γ name a σ τ} : name ≠ dispatcher → takes name σ τ → HasType Γ a σ →
      HasType Γ (.call τ name a) τ
  | apply {Γ a f σ τ} : HasType Γ a σ → HasType Γ f (.function σ τ) →
      HasType Γ (.call τ dispatcher (.tuple (.tuple [σ, .function σ τ]) [a, f])) τ
  | test {Γ e p level} : p.WellTyped level → HasType Γ e p.ty →
      HasType Γ (.test (.scalar .bool) e p) (.scalar .bool)
  | command {Γ τ w line} : τ.blank? = some w → HasType Γ (.command τ line) τ

/-- Several terms have types, one each. -/
inductive HaveTypes : List Ty → List Term → List Ty → Prop
  | nil {Γ} : HaveTypes Γ [] []
  | cons {Γ t ts τ τs} : HasType Γ t τ → HaveTypes Γ ts τs → HaveTypes Γ (t :: ts) (τ :: τs)

/-- The fields of a record have types under the same keys. -/
inductive FieldsHaveTypes : List Ty → List (String × Term) → List (String × Ty) → Prop
  | nil {Γ} : FieldsHaveTypes Γ [] []
  | cons {Γ key t rest τ τs} : HasType Γ t τ → FieldsHaveTypes Γ rest τs →
      FieldsHaveTypes Γ ((key, t) :: rest) ((key, τ) :: τs)

end

/-- The body of a function has the type of the result in the scope of the binder, and neither the
function nor its binder keeps slots. -/
structure Function.WellTyped (f : Function) : Prop where
  drops : f.has .noDrop = false
  binderDrops : f.binder.has .noDrop = false
  binder : f.binder.WellTyped 0
  body : HasType P takes f.binder.types f.body f.result

/-- Whatever can be called is a well-typed function or a builtin with this interface. -/
def Program.WellTyped : Prop :=
  ∀ {name σ τ}, takes name σ τ →
    (∃ f, P.function? name = some f ∧ f.WellTyped P takes ∧ f.binder.ty = σ ∧ f.result = τ) ∨
    ∃ b, P.find? name = some (.builtin b) ∧ b.param = σ ∧ b.result = τ

end

section

variable {P : Program} {takes : DefName → Ty → Ty → Prop}

/-- The record of captured variables has each of them under its name. -/
theorem Capturable.find? {Γ : List Ty} {captures : List Capture} (h : Capturable Γ captures) :
    ∀ c ∈ captures, Keyed.find? c.v.name (captures.map fun c => (c.v.name, c.ty)) = some c.ty := by
  intro c hc
  refine Keyed.find?_of_mem ?_ (List.mem_map.2 ⟨c, hc, rfl⟩)
  rw [Keyed.keys, List.map_map]
  exact h.nodup

theorem HasType.ty_eq {Γ : List Ty} {t : Term} {τ : Ty} (h : HasType P takes Γ t τ) :
    t.ty = τ := by
  cases h <;> rfl

end

/-! ## Values -/

section

variable (P : Program) (takes : DefName → Ty → Ty → Prop)

mutual

/-- A value has a type. -/
inductive Inhabits : Value → Ty → Prop
  | literal {l} : Inhabits (.literal l) (.scalar l.scalar)
  | array {kind ws} : (∀ w ∈ ws, Inhabits w (.scalar kind.scalar)) →
      Inhabits (.array kind ws) (.array kind)
  | list {σ ws} : (∀ w ∈ ws, Inhabits w σ) → Inhabits (.list ws) (.list σ)
  | compound {fields τs} : (fields.map (·.1)).Nodup → FieldsInhabit fields τs →
      Inhabits (.compound fields) (.compound τs)
  | tuple {ws τs} : AllInhabit ws τs → Inhabits (.tuple ws) (.tuple τs)
  | closure {Γ tag captured p captures τ b} : Capturable Γ captures →
      p.WellTyped 0 → P.HasBody tag (closureBinder p captures) τ b →
      HasType P takes (p.types ++ captures.map (·.ty)) b τ →
      FieldsInhabit captured (captures.map fun c => (c.v.name, c.ty)) →
      Inhabits (.closure tag captured) (.function p.ty τ)

/-- Several values have types, one each. -/
inductive AllInhabit : List Value → List Ty → Prop
  | nil : AllInhabit [] []
  | cons {w ws τ τs} : Inhabits w τ → AllInhabit ws τs → AllInhabit (w :: ws) (τ :: τs)

/-- The fields of a record have types under the same keys. -/
inductive FieldsInhabit : List (String × Value) → List (String × Ty) → Prop
  | nil : FieldsInhabit [] []
  | cons {key w rest τ τs} : Inhabits w τ → FieldsInhabit rest τs →
      FieldsInhabit ((key, w) :: rest) ((key, τ) :: τs)

end

end

section

variable {P : Program} {takes : DefName → Ty → Ty → Prop}

theorem AllInhabit.length_eq {ws : List Value} {τs : List Ty} (h : AllInhabit P takes ws τs) :
    ws.length = τs.length := by
  induction ws generalizing τs with
  | nil =>
    cases h
    rfl
  | cons w ws ih =>
    cases h with
    | cons _ h => rw [List.length_cons, List.length_cons, ih h]

theorem AllInhabit.append {vs ws : List Value} {σs τs : List Ty} (h : AllInhabit P takes vs σs)
    (h' : AllInhabit P takes ws τs) : AllInhabit P takes (vs ++ ws) (σs ++ τs) := by
  induction vs generalizing σs with
  | nil =>
    cases h
    exact h'
  | cons v vs ih =>
    cases h with
    | cons hv h => exact .cons hv (ih h)

theorem AllInhabit.getElem? {ws : List Value} {τs : List Ty} (h : AllInhabit P takes ws τs)
    {i : Nat} {τ : Ty} (hτ : τs[i]? = some τ) : ∃ w, ws[i]? = some w ∧ Inhabits P takes w τ := by
  induction i generalizing ws τs with
  | zero =>
    cases h with
    | nil => cases hτ
    | cons hw _ =>
      cases hτ
      exact ⟨_, rfl, hw⟩
  | succ i ih =>
    cases h with
    | nil => cases hτ
    | cons _ h => exact ih h hτ

/-- What a record has at a key of its type. -/
theorem FieldsInhabit.find? {fields : List (String × Value)} {τs : List (String × Ty)}
    (h : FieldsInhabit P takes fields τs) {key : String} {τ : Ty}
    (hτ : Keyed.find? key τs = some τ) :
    ∃ w, Keyed.find? key fields = some w ∧ Inhabits P takes w τ := by
  induction fields generalizing τs with
  | nil =>
    cases h
    cases hτ
  | cons f fields ih =>
    cases h with
    | cons hw h =>
      rw [Keyed.find?] at hτ ⊢
      split at hτ
      · next hkey =>
        cases hτ
        exact ⟨_, if_pos hkey, hw⟩
      · next hkey =>
        rw [if_neg hkey]
        exact ih h hτ

end

end Stagecraft.Flat
