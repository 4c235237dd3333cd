import Mathlib.Data.List.Forall2
import Stagecraft.Pipeline.Build
import Stagecraft.Proofs.Except
import Stagecraft.Proofs.FlatSemantics
import Stagecraft.Proofs.Scoping

/-!
# What conversion gives

Conversion threads a count of helpers through the term and grows a list of them. `Flattened` says
what the flat form of a term is without that state: a term of the same shape whose helpers are
definitions of a given program. `flattened_ofStaged` is the bridge: whatever a conversion returns is
a flat form in every program that has the helpers it split off. Helper names are never compared
with each other here; that the program finds each helper under its name is all that is needed.
-/

namespace Stagecraft.Flat

open Staged (Table)

/-- The names of the variables in scope, by level. -/
def Bindings.names (scope : Bindings) : List String := scope.items.map (·.name)

section

variable (table : Table)

/-- The flat form of what a pattern node carries beside its shape. -/
structure InfoOf (info : Staged.PatternInfo) (flat : PatternInfo) : Prop where
  ty : Ty.ofStaged table info.ty = .ok flat.ty
  marks : Mark.ofStagedAll info.marks = .ok flat.marks

mutual

/-- A staged pattern in a scope, its flat form, and the scope with its variables bound. -/
inductive Mirrors : Bindings → Staged.Pattern → Pattern → Bindings → Prop
  | int {S info info' n} : InfoOf table info info' → Mirrors S (.int info n) (.int info' n) S
  | range {S info info' min max} : InfoOf table info info' →
      Mirrors S (.range info min max) (.range info' min max) S
  | list {S S' info info' ps ps'} : InfoOf table info info' → MirrorsAll S ps ps' S' →
      Mirrors S (.list info ps) (.list info' ps') S'
  | compound {S S' info info' fields fields'} : InfoOf table info info' →
      MirrorsFields S fields fields' S' →
      Mirrors S (.compound info fields) (.compound info' fields') S'
  | tuple {S S' info info' ps ps'} : InfoOf table info info' → MirrorsAll S ps ps' S' →
      Mirrors S (.tuple info ps) (.tuple info' ps') S'
  | var {S info info' v} : InfoOf table info info' →
      Mirrors S (.var info v) (.var info' ⟨v.name, S.length⟩) (S.bind ⟨v.name, info'.ty⟩)
  | wildcard {S info info'} : InfoOf table info info' →
      Mirrors S (.wildcard info) (.wildcard info') S

/-- Several patterns, each in the scope that the one before leaves. -/
inductive MirrorsAll : Bindings → List Staged.Pattern → List Pattern → Bindings → Prop
  | nil {S} : MirrorsAll S [] [] S
  | cons {S S' S'' p p' ps ps'} : Mirrors S p p' S' → MirrorsAll S' ps ps' S'' →
      MirrorsAll S (p :: ps) (p' :: ps') S''

/-- The fields of a record pattern, as `MirrorsAll`. -/
inductive MirrorsFields : Bindings → List (String × Staged.Pattern) → List (String × Pattern) →
    Bindings → Prop
  | nil {S} : MirrorsFields S [] [] S
  | cons {S S' S'' key p p' rest rest'} : Mirrors S p p' S' → MirrorsFields S' rest rest' S'' →
      MirrorsFields S ((key, p) :: rest) ((key, p') :: rest') S''

end

end

/-! ## Inversion of the conversion of patterns -/

section

variable {table : Table}

mutual

/-- What the conversion of a pattern returns is its flat form. -/
theorem mirrors_ofStaged : ∀ {p : Staged.Pattern} {S S' : Bindings} {p' : Pattern},
    Pattern.ofStaged table S p = .ok (p', S') → Mirrors table S p p' S'
  | .int info n, S, S', p', h => by
    simp only [Pattern.ofStaged, Except.bind_ok] at h
    obtain ⟨ty, hty, marks, hmarks, h⟩ := h
    cases h
    exact .int ⟨hty, hmarks⟩
  | .range info min max, S, S', p', h => by
    simp only [Pattern.ofStaged, Except.bind_ok] at h
    obtain ⟨ty, hty, marks, hmarks, h⟩ := h
    cases h
    exact .range ⟨hty, hmarks⟩
  | .list info ps, S, S', p', h => by
    simp only [Pattern.ofStaged, Except.bind_ok] at h
    obtain ⟨ty, hty, ⟨ps', S''⟩, hps, marks, hmarks, h⟩ := h
    cases h
    exact .list ⟨hty, hmarks⟩ (mirrorsAll_ofStaged hps)
  | .compound info fields, S, S', p', h => by
    simp only [Pattern.ofStaged, Except.bind_ok] at h
    obtain ⟨ty, hty, ⟨fields', S''⟩, hfields, marks, hmarks, h⟩ := h
    cases h
    exact .compound ⟨hty, hmarks⟩ (mirrorsFields_ofStaged hfields)
  | .tuple info ps, S, S', p', h => by
    simp only [Pattern.ofStaged, Except.bind_ok] at h
    obtain ⟨ty, hty, ⟨ps', S''⟩, hps, marks, hmarks, h⟩ := h
    cases h
    exact .tuple ⟨hty, hmarks⟩ (mirrorsAll_ofStaged hps)
  | .var info v, S, S', p', h => by
    simp only [Pattern.ofStaged, Except.bind_ok] at h
    obtain ⟨ty, hty, marks, hmarks, h⟩ := h
    cases h
    have hinfo : InfoOf table info ⟨marks, ty⟩ := ⟨hty, hmarks⟩
    exact .var hinfo
  | .wildcard info, S, S', p', h => by
    simp only [Pattern.ofStaged, Except.bind_ok] at h
    obtain ⟨ty, hty, marks, hmarks, h⟩ := h
    cases h
    exact .wildcard ⟨hty, hmarks⟩
  | .hole info, S, S', p', h => by
    simp only [Pattern.ofStaged, Except.bind_ok, reduceCtorEq, and_false, exists_false] at h

theorem mirrorsAll_ofStaged : ∀ {ps : List Staged.Pattern} {S S' : Bindings} {ps' : List Pattern},
    Pattern.ofStagedAll table S ps = .ok (ps', S') → MirrorsAll table S ps ps' S'
  | [], S, S', ps', h => by
    cases h
    exact .nil
  | p :: ps, S, S', ps', h => by
    simp only [Pattern.ofStagedAll, Except.bind_ok] at h
    obtain ⟨⟨q, S₁⟩, hp, ⟨qs, S₂⟩, hps, h⟩ := h
    cases h
    exact .cons (mirrors_ofStaged hp) (mirrorsAll_ofStaged hps)

theorem mirrorsFields_ofStaged : ∀ {fields : List (String × Staged.Pattern)} {S S' : Bindings}
    {fields' : List (String × Pattern)},
    Pattern.ofStagedFields table S fields = .ok (fields', S') →
      MirrorsFields table S fields fields' S'
  | [], S, S', fields', h => by
    cases h
    exact .nil
  | (key, p) :: rest, S, S', fields', h => by
    simp only [Pattern.ofStagedFields, Except.bind_ok] at h
    obtain ⟨⟨q, S₁⟩, hp, ⟨qs, S₂⟩, hrest, h⟩ := h
    cases h
    exact .cons (mirrors_ofStaged hp) (mirrorsFields_ofStaged hrest)

end

mutual

theorem Mirrors.length_binders : ∀ {p : Staged.Pattern} {S S' : Bindings} {p' : Pattern},
    Mirrors table S p p' S' → p'.binders.length = p.binders.length
  | .int .., _, _, _, .int _ => rfl
  | .range .., _, _, _, .range _ => rfl
  | .list .., _, _, _, .list _ hps => hps.length_binders
  | .compound .., _, _, _, .compound _ hfields => hfields.length_binders
  | .tuple .., _, _, _, .tuple _ hps => hps.length_binders
  | .var .., _, _, _, .var _ => rfl
  | .wildcard .., _, _, _, .wildcard _ => rfl

theorem MirrorsAll.length_binders : ∀ {ps : List Staged.Pattern} {S S' : Bindings}
    {ps' : List Pattern}, MirrorsAll table S ps ps' S' →
      (Pattern.bindersOfAll ps').length = (Staged.Pattern.bindersOfAll ps).length
  | [], _, _, _, .nil => rfl
  | p :: ps, _, _, _, .cons hp hps => by
    rw [Pattern.bindersOfAll, Staged.Pattern.bindersOfAll, List.length_append, List.length_append,
      hp.length_binders, hps.length_binders]

theorem MirrorsFields.length_binders : ∀ {fields : List (String × Staged.Pattern)}
    {S S' : Bindings} {fields' : List (String × Pattern)},
    MirrorsFields table S fields fields' S' →
      (Pattern.bindersOfFields fields').length = (Staged.Pattern.bindersOfFields fields).length
  | [], _, _, _, .nil => rfl
  | (_, p) :: rest, _, _, _, .cons hp hrest => by
    rw [Pattern.bindersOfFields, Staged.Pattern.bindersOfFields, List.length_append,
      List.length_append, hp.length_binders, hrest.length_binders]

end

mutual

/-- A pattern binds its variables by name, from left to right, after those in scope. -/
theorem Mirrors.names_eq : ∀ {p : Staged.Pattern} {S S' : Bindings} {p' : Pattern},
    Mirrors table S p p' S' → S'.names = S.names ++ p.binders.map (·.name)
  | .int .., _, _, _, .int _ => by simp [Staged.Pattern.binders]
  | .range .., _, _, _, .range _ => by simp [Staged.Pattern.binders]
  | .list .., _, _, _, .list _ hps => by rw [hps.names_eq, Staged.Pattern.binders]
  | .compound .., _, _, _, .compound _ hfields => by
    rw [hfields.names_eq, Staged.Pattern.binders]
  | .tuple .., _, _, _, .tuple _ hps => by rw [hps.names_eq, Staged.Pattern.binders]
  | .var .., _, _, _, .var _ => by simp [Staged.Pattern.binders, Bindings.names, Scope.bind]
  | .wildcard .., _, _, _, .wildcard _ => by simp [Staged.Pattern.binders]

theorem MirrorsAll.names_eq : ∀ {ps : List Staged.Pattern} {S S' : Bindings} {ps' : List Pattern},
    MirrorsAll table S ps ps' S' →
      S'.names = S.names ++ (Staged.Pattern.bindersOfAll ps).map (·.name)
  | [], _, _, _, .nil => by simp [Staged.Pattern.bindersOfAll]
  | p :: ps, _, _, _, .cons hp hps => by
    rw [hps.names_eq, hp.names_eq, Staged.Pattern.bindersOfAll, List.map_append,
      List.append_assoc]

theorem MirrorsFields.names_eq : ∀ {fields : List (String × Staged.Pattern)} {S S' : Bindings}
    {fields' : List (String × Pattern)}, MirrorsFields table S fields fields' S' →
      S'.names = S.names ++ (Staged.Pattern.bindersOfFields fields).map (·.name)
  | [], _, _, _, .nil => by simp [Staged.Pattern.bindersOfFields]
  | (_, p) :: rest, _, _, _, .cons hp hrest => by
    rw [hrest.names_eq, hp.names_eq, Staged.Pattern.bindersOfFields, List.map_append,
      List.append_assoc]

end

end

/-- A flat binder binds as many values as the pattern has variables. -/
theorem Mirrors.length_bind? {table : Table} {p : Staged.Pattern} {S S' : Bindings} {p' : Pattern}
    (h : Mirrors table S p p' S') {w : Value} {ws : List Value} (hws : p'.bind? w = some ws) :
    ws.length = p.binders.length := by
  rw [Pattern.length_bind? hws, h.length_binders]

theorem MirrorsAll.length_eq {table : Table} : ∀ {ps : List Staged.Pattern} {S S' : Bindings}
    {ps' : List Pattern}, MirrorsAll table S ps ps' S' → ps'.length = ps.length
  | [], _, _, _, .nil => rfl
  | _ :: _, _, _, _, .cons _ hps => congrArg Nat.succ hps.length_eq

/-! ## Scopes of helpers -/

/-- A name that is resolved has the level of its innermost binding. -/
theorem Bindings.resolve_ok {S : Bindings} {name : String} {v : Var} {τ : Ty}
    (h : S.resolve name = .ok (v, τ)) :
    v.name = name ∧ Scope.levelOf? S.names name = some v.level := by
  have hnames : Scope.levelOf? S.names name = S.innermost? (·.name == name) :=
    Scope.lastIndex?_map ..
  unfold Bindings.resolve at h
  rw [hnames]
  split at h
  · cases h
  · next level hlevel =>
    split at h
    · cases h
    · cases h
      exact ⟨rfl, hlevel⟩

/-- What is captured under a name is the innermost variable of that name. -/
theorem captured?_ok {S : Bindings} {ρ : List Value} : ∀ {names : List String}
    {captures : List Capture} {captured : List (String × Value)},
    capturesOf S names = .ok captures → captured? ρ captures = some captured →
    ∀ {name w}, Keyed.find? name captured = some w →
      name ∈ names ∧ ∃ level, Scope.levelOf? S.names name = some level ∧ ρ[level]? = some w
  | [], captures, captured, hcaptures, hcaptured, name, w, hw => by
    cases hcaptures
    cases hcaptured
    cases hw
  | n :: rest, captures, captured, hcaptures, hcaptured, name, w, hw => by
    simp only [capturesOf, Except.bind_ok] at hcaptures
    obtain ⟨⟨v, τ⟩, hv, more, hmore, hcaptures⟩ := hcaptures
    cases hcaptures
    obtain ⟨hname, hlevel⟩ := Bindings.resolve_ok hv
    simp only [captured?, Option.bind_eq_bind, Option.bind_eq_some_iff, Option.pure_def,
      Option.some.injEq] at hcaptured
    obtain ⟨w', hw', more', hmore', rfl⟩ := hcaptured
    by_cases h : v.name = name
    · rw [Keyed.find?, if_pos h] at hw
      cases hw
      rw [hname] at h
      subst h
      exact ⟨List.mem_cons_self, v.level, hlevel, hw'⟩
    · rw [Keyed.find?, if_neg h] at hw
      obtain ⟨hmem, hin⟩ := captured?_ok hmore hmore' hw
      exact ⟨List.mem_cons_of_mem _ hmem, hin⟩

/-- The fields of a record pattern that binds captured variables from a level on. -/
def captureFields : Nat → List Capture → List (String × Pattern)
  | _, [] => []
  | level, c :: rest =>
    (c.v.name, .ofVar ⟨c.v.name, level⟩ c.ty) :: captureFields (level + 1) rest

/-- The type of the record of captured variables. -/
def capturesTy (captures : List Capture) : Ty := .compound (captures.map fun c => (c.v.name, c.ty))

theorem bindCaptures_eq (S : Bindings) (captures : List Capture) :
    bindCaptures S captures =
      (.compound ⟨[], capturesTy captures⟩ (captureFields S.length captures),
        ⟨S.items ++ captures.map fun c => ⟨c.v.name, c.ty⟩⟩) := by
  have hfold : ∀ (captures : List Capture) (fields : List (String × Pattern)) (S : Bindings),
      captures.foldl (fun (acc : List (String × Pattern) × Bindings) c =>
        (acc.1 ++ [(c.v.name, Pattern.ofVar ⟨c.v.name, acc.2.length⟩ c.ty)],
          acc.2.bind ⟨c.v.name, c.ty⟩)) (fields, S) =
      (fields ++ captureFields S.length captures,
        ⟨S.items ++ captures.map fun c => ⟨c.v.name, c.ty⟩⟩) := by
    intro captures
    induction captures with
    | nil => intro fields S; simp [captureFields]
    | cons c rest ih =>
      intro fields S
      rw [List.foldl_cons, ih, captureFields]
      simp [Scope.bind, Scope.length]
  unfold bindCaptures
  rw [hfold]
  rfl

theorem bindCaptures_names (S : Bindings) (captures : List Capture) :
    Bindings.names (bindCaptures S captures).2 = S.names ++ captures.map (·.v.name) := by
  simp [bindCaptures_eq, Bindings.names, Function.comp_def]

/-- The record pattern of captured variables binds what the record has under their names. -/
theorem bindFields?_captureFields {captured : List (String × Value)} :
    ∀ {captures : List Capture} {level : Nat} {ws : List Value},
      Pattern.bindFields? captured (captureFields level captures) = some ws →
      List.Forall₂ (fun c w => Keyed.find? c.v.name captured = some w) captures ws
  | [], _, ws, h => by
    cases h
    exact .nil
  | c :: rest, _, ws, h => by
    simp only [captureFields, Pattern.bindFields?, Option.bind_eq_bind, Option.bind_eq_some_iff,
      Option.pure_def, Option.some.injEq] at h
    obtain ⟨w, hw, here, hhere, more, hmore, rfl⟩ := h
    cases hhere
    exact .cons hw (bindFields?_captureFields hmore)

theorem bindAll?_ofVars {β : Type} (f : β → Pattern) (hf : ∀ b w, (f b).bind? w = some [w]) :
    ∀ {bs : List β} {ws : List Value}, bs.length = ws.length →
      Pattern.bindAll? (bs.map f) ws = some ws
  | [], [], _ => rfl
  | b :: bs, w :: ws, h => by
    simp only [List.map_cons, Pattern.bindAll?, hf, bindAll?_ofVars f hf (Nat.succ.inj h)]
    rfl

/-- A clause of a conditional binds the variables in scope again. -/
theorem Bindings.binder_bind? {S : Bindings} {ρ : List Value} (h : ρ.length = S.length) :
    S.binder.bind? (.tuple ρ) = some ρ := by
  have hlen : S.vars.length = ρ.length := by simp [Bindings.vars, h, Scope.length]
  simp only [Bindings.binder, Pattern.ofTuple, Pattern.bind?, List.length_map, if_pos hlen]
  exact bindAll?_ofVars _ (fun _ _ => rfl) hlen

theorem evaluatesAll_vars {P : Program} {ρ : List Value} : ∀ {bs : List Binding} {k : Nat}
    {ws : List Value}, EvaluatesAll P ρ
      ((bs.zipIdx k).map fun e => .var e.1.ty ⟨e.1.name, e.2⟩) ws → ws = (ρ.drop k).take bs.length
  | [], k, ws, h => by
    cases h
    rw [List.length_nil, List.take_zero]
  | b :: bs, k, ws, h => by
    cases h with
    | cons hw hws =>
      cases hw with
      | var hv =>
        obtain ⟨hlt, hv⟩ := List.getElem?_eq_some_iff.1 hv
        rw [evaluatesAll_vars hws, List.length_cons, List.drop_eq_getElem_cons hlt,
          List.take_succ_cons, ← hv]

/-- The argument of a clause of a conditional is the environment. -/
theorem Bindings.evaluates_argument {P : Program} {S : Bindings} {ρ : List Value} {w : Value}
    (h : Evaluates P ρ S.argument w) (hlen : ρ.length = S.length) : w = .tuple ρ := by
  cases h with
  | tuple hws =>
    rw [Bindings.vars, List.map_map] at hws
    rw [evaluatesAll_vars hws, List.drop_zero, List.take_of_length_le]
    exact Nat.le_of_eq hlen

/-! ## Flat forms of terms -/

section

variable (table : Table) (P : Program)

/-- A program has a clause of a conditional in a scope. -/
def Program.HasClause (name : DefName) (scope : Bindings) (result : Ty) (body : Term)
    (restore : Option Int32) : Prop :=
  P.function? name = some ⟨[], name, scope.binder, result, body, restore⟩

/-- A program has a closure body at a tag, which restores that tag. -/
def Program.HasBody (tag : Nat) (binder : Pattern) (result : Ty) (body : Term) : Prop :=
  ∃ name, P.closures.bodies[tag]? = some name ∧
    P.function? name = some ⟨[], name, binder, result, body, some (Int32.ofNat tag)⟩

mutual

/-- A staged term in a scope and its flat form, whose helpers the program has. -/
inductive Flattened : Bindings → Staged.Term → Term → Prop
  | literal {S t τ l} : Ty.ofStaged table t = .ok τ → Flattened S (.literal t l) (.literal τ l)
  | array {S t τ kind es es'} : Ty.ofStaged table t = .ok τ → FlattenedAll S es es' →
      Flattened S (.array t kind es) (.array τ kind es')
  | list {S t τ es es'} : Ty.ofStaged table t = .ok τ → FlattenedAll S es es' →
      Flattened S (.list t es) (.list τ es')
  | compound {S t τ fields fields'} : Ty.ofStaged table t = .ok τ →
      FlattenedFields S fields fields' → Flattened S (.compound t fields) (.compound τ fields')
  | ref {S t τ e e'} : Ty.ofStaged table t = .ok τ → Flattened S e e' →
      Flattened S (.ref t e) (.ref τ e')
  | tuple {S t τ es es'} : Ty.ofStaged table t = .ok τ → FlattenedAll S es es' →
      Flattened S (.tuple t es) (.tuple τ es')
  | lambda {S inner t σ τ p p' b b' captures tag} :
      Ty.ofStaged table t = .ok (.function σ τ) →
      capturesOf S (Staged.Term.lambda t p b).freeNames.names = .ok captures →
      Mirrors table .empty p p' inner →
      Flattened (bindCaptures inner captures).2 b b' →
      P.HasBody tag (.ofTuple [p', (bindCaptures inner captures).1]) τ b' →
      Flattened S (.lambda t p b) (.closure (.function σ τ) tag captures)
  | apply {S t τ f f' a a'} : Ty.ofStaged table t = .ok τ → Flattened S f f' →
      Flattened S a a' → Flattened S (.apply t f a) (.call τ dispatcher (.ofTuple [a', f']))
  | cond {S t τ c c' a a' b b' thenName elseName} : Ty.ofStaged table t = .ok τ →
      Flattened S c c' →
      Flattened S a a' → P.HasClause thenName S τ a' (some 1) →
      Flattened S b b' → P.HasClause elseName S τ b' none →
      Flattened S (.cond t c a b) (.branch τ c' S.argument thenName elseName)
  | letIn {S inner t τ p p' i i' b b'} : Ty.ofStaged table t = .ok τ → Flattened S i i' →
      Mirrors table S p p' inner → Flattened inner b b' →
      Flattened S (.letIn t p i b) (.letIn τ p' i' b')
  | var {S t τ σ v v'} : Ty.ofStaged table t = .ok τ → S.resolve v.name = .ok (v', σ) →
      Flattened S (.var t v) (.var τ v')
  | call {S t τ name a a'} : Ty.ofStaged table t = .ok τ →
      (table.function? name).isSome ∨ name = dispatcher → Flattened S a a' →
      Flattened S (.call t name a) (.call τ name a')
  | test {S inner t τ e e' p p'} : Ty.ofStaged table t = .ok τ → Flattened S e e' →
      Mirrors table S p p' inner → Flattened S (.test t e p) (.test τ e' p')
  | command {S t τ line} : Ty.ofStaged table t = .ok τ →
      Flattened S (.command t line) (.command τ line)

/-- Several terms and their flat forms. -/
inductive FlattenedAll : Bindings → List Staged.Term → List Term → Prop
  | nil {S} : FlattenedAll S [] []
  | cons {S t t' ts ts'} : Flattened S t t' → FlattenedAll S ts ts' →
      FlattenedAll S (t :: ts) (t' :: ts')

/-- The fields of a record and their flat forms. -/
inductive FlattenedFields : Bindings → List (String × Staged.Term) → List (String × Term) → Prop
  | nil {S} : FlattenedFields S [] []
  | cons {S key t t' rest rest'} : Flattened S t t' → FlattenedFields S rest rest' →
      FlattenedFields S ((key, t) :: rest) ((key, t') :: rest')

end

end

/-! ## Computations that split off helpers -/

/-- Everything split off so far is still there later. -/
structure Progress.Extends (p p' : Progress) : Prop where
  helpers : p.helpers <+: p'.helpers
  closures : p.closures <+: p'.closures

theorem Progress.Extends.refl (p : Progress) : p.Extends p :=
  ⟨List.prefix_refl _, List.prefix_refl _⟩

theorem Progress.Extends.trans {p q r : Progress} (h : p.Extends q) (k : q.Extends r) :
    p.Extends r :=
  ⟨h.helpers.trans k.helpers, h.closures.trans k.closures⟩

/-- A program has what a conversion split off: every helper under its name, and the closure bodies
among them at their tags. -/
structure Program.Has (P : Program) (site : Site) (p : Progress) : Prop where
  helper : ∀ {f}, f ∈ p.helpers → P.function? f.name = some f
  body : ∀ {i name}, p.closures[i]? = some name →
    P.closures.bodies[site.firstTag + i]? = some name

theorem Program.Has.of_extends {P : Program} {site : Site} {p p' : Progress}
    (h : P.Has site p') (hp : p.Extends p') : P.Has site p where
  helper hf := h.helper (hp.helpers.subset hf)
  body hi := by
    obtain ⟨hlt, heq⟩ := List.getElem?_eq_some_iff.1 hi
    have hi' := List.prefix_iff_getElem?.1 hp.closures _ hlt
    exact h.body (heq ▸ hi')

/-- A computation that goes through only adds to what was split off, and its result is right in
every program that has all of that. -/
def Splits {α : Type} (P : Program) (site : Site) (x : ConvertM α) (Q : α → Prop) : Prop :=
  ∀ ⦃p a p'⦄, x.run p = .ok (a, p') → p.Extends p' ∧ (P.Has site p' → Q a)

namespace Splits

variable {P : Program} {site : Site} {α β : Type}

theorem ret {a : α} {Q : α → Prop} (h : Q a) : Splits P site (pure a) Q := by
  intro p b p' hx
  cases hx
  exact ⟨.refl p, fun _ => h⟩

theorem bind {x : ConvertM α} {f : α → ConvertM β} {Q : α → Prop} {R : β → Prop}
    (hx : Splits P site x Q) (hf : ∀ a, Splits P site (f a) fun b => Q a → R b) :
    Splits P site (x >>= f) R := by
  intro p b p'' h
  rw [StateT.run_bind, Except.bind_ok] at h
  obtain ⟨⟨a, p'⟩, ha, hb⟩ := h
  obtain ⟨hpp', hQ⟩ := hx ha
  obtain ⟨hpp'', hR⟩ := hf a hb
  exact ⟨hpp'.trans hpp'', fun hP => hR hP (hQ (hP.of_extends hpp''))⟩

/-- An answer that splits off nothing. -/
theorem lift {e : Except Error α} : Splits P site (liftM e) fun a => e = .ok a := by
  intro p a p' h
  cases e with
  | error _ => cases h
  | ok b =>
    cases h
    exact ⟨.refl p, fun _ => rfl⟩

theorem throw {e : Error} {Q : α → Prop} : Splits P site (throw e) Q :=
  fun _ _ _ h => nomatch h

theorem freshName : Splits P site (freshName site) fun _ => True := by
  intro p a p' h
  cases h
  exact ⟨⟨List.prefix_refl _, List.prefix_refl _⟩, fun _ => trivial⟩

theorem addHelper {f : Function} :
    Splits P site (addHelper f) fun _ => P.function? f.name = some f := by
  intro p a p' h
  cases h
  exact ⟨⟨List.prefix_append _ _, List.prefix_refl _⟩, fun hP => hP.helper (by simp)⟩

theorem addClause {scope : Bindings} {result : Ty} {body : Term} {restore : Option Int32} :
    Splits P site (addClause site scope result body restore)
      fun name => P.HasClause name scope result body restore :=
  freshName.bind fun _ => addHelper.bind fun _ => ret fun h _ => h

theorem addClosure {binder : Pattern} {result : Ty} {body : Term} :
    Splits P site (addClosure site binder result body)
      fun tag => P.HasBody tag binder result body := by
  intro p tag p' h
  cases h
  refine ⟨⟨List.prefix_append _ _, List.prefix_append _ _⟩, fun hP => ?_⟩
  exact ⟨_, hP.body List.getElem?_concat_length,
    hP.helper (List.mem_append_right _ List.mem_cons_self)⟩

end Splits

section

variable {table : Table} {P : Program} {site : Site}

mutual

/-- What the conversion of a term returns is a flat form of it. -/
theorem flattened_ofStaged : ∀ (t : Staged.Term) (S : Bindings),
    Splits P site (Term.ofStaged table site S t) (Flattened table P S t)
  | .literal t l, S => by
    unfold Term.ofStaged
    exact Splits.lift.bind fun τ => .ret fun hτ => .literal hτ
  | .array t kind es, S => by
    unfold Term.ofStaged
    exact Splits.lift.bind fun τ => (flattenedAll_ofStaged es S).bind fun es' =>
      .ret fun hes hτ => .array hτ hes
  | .list t es, S => by
    unfold Term.ofStaged
    exact Splits.lift.bind fun τ => (flattenedAll_ofStaged es S).bind fun es' =>
      .ret fun hes hτ => .list hτ hes
  | .compound t fields, S => by
    unfold Term.ofStaged
    exact Splits.lift.bind fun τ => (flattenedFields_ofStaged fields S).bind fun fields' =>
      .ret fun hfields hτ => .compound hτ hfields
  | .ref t e, S => by
    unfold Term.ofStaged
    exact Splits.lift.bind fun τ => (flattened_ofStaged e S).bind fun e' =>
      .ret fun he hτ => .ref hτ he
  | .tuple t es, S => by
    unfold Term.ofStaged
    exact Splits.lift.bind fun τ => (flattenedAll_ofStaged es S).bind fun es' =>
      .ret fun hes hτ => .tuple hτ hes
  | .lambda t p b, S => by
    unfold Term.ofStaged
    refine Splits.lift.bind fun τ => Splits.lift.bind fun captures => ?_
    split
    · next σ τ =>
      refine Splits.lift.bind fun ⟨p', inner⟩ => ?_
      refine (flattened_ofStaged b (bindCaptures inner captures).2).bind fun b' => ?_
      refine Splits.addClosure.bind fun tag => .ret ?_
      intro hbody hb hp hcaptures hτ
      exact .lambda hτ hcaptures (mirrors_ofStaged hp) hb hbody
    · exact .throw
  | .apply t f a, S => by
    unfold Term.ofStaged
    refine Splits.lift.bind fun τ => (flattened_ofStaged f S).bind fun f' => ?_
    refine (flattened_ofStaged a S).bind fun a' => .ret ?_
    intro ha hf hτ
    exact .apply hτ hf ha
  | .cond t c a b, S => by
    unfold Term.ofStaged
    refine Splits.lift.bind fun τ => Splits.lift.bind fun _ => Splits.lift.bind fun _ => ?_
    refine (flattened_ofStaged c S).bind fun c' => ?_
    refine (flattened_ofStaged a S).bind fun a' => Splits.addClause.bind fun thenName => ?_
    refine (flattened_ofStaged b S).bind fun b' => Splits.addClause.bind fun elseName => .ret ?_
    intro helse hb hthen ha hc _ _ hτ
    exact .cond hτ hc ha hthen hb helse
  | .letIn t p i b, S => by
    unfold Term.ofStaged
    refine Splits.lift.bind fun τ => (flattened_ofStaged i S).bind fun i' => ?_
    refine Splits.lift.bind fun ⟨p', inner⟩ => (flattened_ofStaged b inner).bind fun b' => .ret ?_
    intro hb hp hi hτ
    exact .letIn hτ hi (mirrors_ofStaged hp) hb
  | .var t v, S => by
    unfold Term.ofStaged
    refine Splits.lift.bind fun τ => Splits.lift.bind fun ⟨v', σ⟩ => .ret ?_
    intro hv hτ
    exact .var hτ hv
  | .call t name a, S => by
    unfold Term.ofStaged
    refine Splits.lift.bind fun τ => ?_
    split
    · exact .throw
    · next hname =>
      refine (flattened_ofStaged a S).bind fun a' => .ret ?_
      intro ha hτ
      refine .call hτ ?_ ha
      cases hf : table.function? name with
      | some f => exact .inl rfl
      | none => exact .inr (by simpa [hf] using hname)
  | .test t e p, S => by
    unfold Term.ofStaged
    refine Splits.lift.bind fun τ => (flattened_ofStaged e S).bind fun e' => ?_
    refine Splits.lift.bind fun ⟨p', inner⟩ => .ret ?_
    intro hp he hτ
    exact .test hτ he (mirrors_ofStaged hp)
  | .command t line, S => by
    unfold Term.ofStaged
    exact Splits.lift.bind fun τ => .ret fun hτ => .command hτ
  | .quote .., S => by
    unfold Term.ofStaged
    exact Splits.lift.bind fun _ => .throw
  | .splice .., S => by
    unfold Term.ofStaged
    exact Splits.lift.bind fun _ => .throw
  | .hole .., S => by
    unfold Term.ofStaged
    exact Splits.lift.bind fun _ => .throw

theorem flattenedAll_ofStaged : ∀ (ts : List Staged.Term) (S : Bindings),
    Splits P site (Term.ofStagedAll table site S ts) (FlattenedAll table P S ts)
  | [], S => by
    unfold Term.ofStagedAll
    exact .ret .nil
  | t :: ts, S => by
    unfold Term.ofStagedAll
    refine (flattened_ofStaged t S).bind fun t' => (flattenedAll_ofStaged ts S).bind fun ts' => ?_
    exact .ret fun hts ht => .cons ht hts

theorem flattenedFields_ofStaged : ∀ (fields : List (String × Staged.Term)) (S : Bindings),
    Splits P site (Term.ofStagedFields table site S fields) (FlattenedFields table P S fields)
  | [], S => by
    unfold Term.ofStagedFields
    exact .ret .nil
  | (key, t) :: rest, S => by
    unfold Term.ofStagedFields
    refine (flattened_ofStaged t S).bind fun t' =>
      (flattenedFields_ofStaged rest S).bind fun rest' => ?_
    exact .ret fun hrest ht => .cons ht hrest

end

end

/-! ## Converted programs -/

section

variable (table : Table) (P : Program)

/-- The flat form of a function, whose binder leaves a scope. -/
structure FunctionOf (f : Staged.Function) (f' : Function) (scope : Bindings) : Prop where
  marks : Mark.ofStagedAll f.marks = .ok f'.marks
  name : f'.name = f.name
  binder : Mirrors table .empty f.binder f'.binder scope
  result : Ty.ofStaged table f.result = .ok f'.result
  body : Flattened table P scope f.body f'.body
  restore : f'.restore = none

/-- The interface of a builtin. -/
structure BuiltinOf (f : Staged.Function) (b : Builtin) : Prop where
  name : b.name = f.name
  param : Ty.ofStaged table f.binder.ty = .ok b.param
  result : Ty.ofStaged table f.result = .ok b.result

/-- A program has the flat form of every function of a table. -/
structure Converted : Prop where
  function : ∀ {f}, .function f ∈ table.definitions → f.has .builtin = false →
    ∃ f' scope, P.function? f.name = some f' ∧ FunctionOf table P f f' scope
  builtin : ∀ {f}, .function f ∈ table.definitions → f.has .builtin = true →
    ∃ b, P.find? f.name = some (.builtin b) ∧ BuiltinOf table f b

/-- What the conversion of a function gives. -/
def OwnOf (f : Staged.Function) (d : Definition) : Prop :=
  if f.has .builtin then ∃ b, d = .builtin b ∧ BuiltinOf table f b
  else ∃ f' scope, d = .function f' ∧ FunctionOf table P f f' scope

end

section

variable {table : Table} {P : Program}

theorem Splits.ofStagedFunction {site : Site} (f : Staged.Function) :
    Splits P site (Definition.ofStagedFunction table site f) (OwnOf table P f) := by
  unfold Definition.ofStagedFunction OwnOf
  refine Splits.lift.bind fun marks => ?_
  split
  · refine Splits.lift.bind fun param => Splits.lift.bind fun result => .ret ?_
    intro hresult hparam _
    exact ⟨_, rfl, rfl, hparam, hresult⟩
  · refine Splits.lift.bind fun ⟨binder, scope⟩ => ?_
    refine (flattened_ofStaged f.body scope).bind fun body => Splits.lift.bind fun result => .ret ?_
    intro hresult hbody hbinder hmarks
    exact ⟨_, scope, rfl, hmarks, rfl, mirrors_ofStaged hbinder, hresult, hbody, rfl⟩

/-- Where names are distinct, every item is found under its name. -/
theorem find?_of_nodup {α β : Type} [DecidableEq β] {name : α → β} {xs : List α}
    (h : (xs.map name).Nodup) {x : α} (hx : x ∈ xs) :
    xs.find? (fun y => name y = name x) = some x := by
  induction xs with
  | nil => cases hx
  | cons y rest ih =>
    rw [List.map_cons, List.nodup_cons] at h
    by_cases hy : name y = name x
    · have heq : x = y := by
        rcases List.mem_cons.1 hx with hx | hx
        · exact hx
        · exact absurd (hy ▸ List.mem_map_of_mem hx) h.1
      rw [List.find?_cons_of_pos (by simp [hy]), heq]
    · rw [List.find?_cons_of_neg (by simp [hy])]
      rcases List.mem_cons.1 hx with rfl | hx
      · exact absurd rfl hy
      · exact ih h.2 hx

theorem Program.find?_of_mem (hP : (P.definitions.map Definition.name).Nodup) {d : Definition}
    (hd : d ∈ P.definitions) : P.find? d.name = some d :=
  find?_of_nodup hP hd

theorem Program.function?_of_mem (hP : (P.definitions.map Definition.name).Nodup) {f : Function}
    (hf : .function f ∈ P.definitions) : P.function? f.name = some f := by
  have hfind : P.find? f.name = some (.function f) := P.find?_of_mem hP hf
  rw [Program.function?, hfind]

open Pipeline (flatten)

theorem convert_extends {closures after : ClosureTable} {d : Staged.Definition}
    {own : List Definition} (h : convert table closures d = .ok (own, after)) :
    closures.bodies <+: after.bodies := by
  unfold convert at h
  rw [Except.bind_ok] at h
  obtain ⟨⟨_, progress⟩, _, h⟩ := h
  cases h
  exact List.prefix_append _ _

/-- Where every definition is converted, each one was converted after some of the others: what it
gave is in the result, and its closure bodies kept their tags. -/
theorem convert_of_flatten : ∀ {ds : List Staged.Definition} {closures closures' : ClosureTable}
    {flat : List Definition}, flatten table closures ds = (flat, closures', []) →
      closures.bodies <+: closures'.bodies ∧ ∀ d ∈ ds, ∃ before own after,
        convert table before d = .ok (own, after) ∧ own ⊆ flat ∧
          after.bodies <+: closures'.bodies
  | [], closures, closures', flat, h => by
    cases h
    exact ⟨List.prefix_refl _, fun d hd => nomatch hd⟩
  | d :: ds, closures, closures', flat, h => by
    unfold flatten at h
    cases hd : convert table closures d with
    | error e => simp [hd] at h
    | ok r =>
      obtain ⟨own, after⟩ := r
      cases hds : flatten table after ds with
      | mk rest r =>
        obtain ⟨closures'', failures⟩ := r
        simp only [hd, hds, Prod.mk.injEq] at h
        obtain ⟨rfl, rfl, rfl⟩ := h
        obtain ⟨hafter, hrest⟩ := convert_of_flatten hds
        refine ⟨(convert_extends hd).trans hafter, fun e he => ?_⟩
        rcases List.mem_cons.1 he with rfl | he
        · exact ⟨closures, own, after, hd, List.subset_append_left _ _, hafter⟩
        · obtain ⟨before, own', after', hconv, hown, hpre⟩ := hrest e he
          exact ⟨before, own', after', hconv,
            List.Subset.trans hown (List.subset_append_right _ _), hpre⟩

/-- The program that has what a conversion gave, in full, has what was split off for it. -/
theorem Program.has_of_convert (hP : (P.definitions.map Definition.name).Nodup)
    {name : DefName} {before : ClosureTable} {own : List Definition} {progress : Progress}
    (hown : own ++ progress.helpers.map .function ⊆ P.definitions)
    (hbodies : (before.append progress.closures).bodies <+: P.closures.bodies) :
    P.Has ⟨name, before.size⟩ progress where
  helper hf := P.function?_of_mem hP (hown (List.mem_append_right _ (List.mem_map_of_mem hf)))
  body {i n} hi := by
    have hi' : (before.append progress.closures).bodies[before.size + i]? = some n := by
      rw [ClosureTable.append, List.getElem?_append_right (by simp [ClosureTable.size]), ← hi]
      simp [ClosureTable.size]
    obtain ⟨hlt, heq⟩ := List.getElem?_eq_some_iff.1 hi'
    exact heq ▸ List.prefix_iff_getElem?.1 hbodies _ hlt

/-- A table all of whose definitions are converted, to definitions of distinct names, makes a
program that has their flat forms. -/
theorem converted_of_flatten {flat : List Definition} {closures : ClosureTable}
    (h : flatten table .empty table.definitions = (flat, closures, []))
    (hnames : (flat.map Definition.name).Nodup) (natives : Eval.Natives) :
    Converted table ⟨flat, closures, natives⟩ := by
  have own : ∀ {f}, Staged.Definition.function f ∈ table.definitions →
      ∃ d ∈ flat, OwnOf table ⟨flat, closures, natives⟩ f d := by
    intro f hf
    obtain ⟨before, own, after, hconv, hown, hpre⟩ := (convert_of_flatten h).2 _ hf
    unfold convert at hconv
    rw [Except.bind_ok] at hconv
    obtain ⟨⟨ds, progress⟩, hrun, hconv⟩ := hconv
    cases hconv
    unfold Definition.ofStaged at hrun
    rw [StateT.run_bind, Except.bind_ok] at hrun
    obtain ⟨⟨d, progress'⟩, hd, hrun⟩ := hrun
    cases hrun
    have hhas : Program.Has ⟨flat, closures, natives⟩ ⟨f.name, before.size⟩ progress' :=
      Program.has_of_convert hnames hown hpre
    exact ⟨d, hown (List.mem_append_left _ List.mem_cons_self),
      (Splits.ofStagedFunction f hd).2 hhas⟩
  refine ⟨fun {f} hf hb => ?_, fun {f} hf hb => ?_⟩
  · obtain ⟨d, hd, hown⟩ := own hf
    rw [OwnOf, if_neg (by simp [hb])] at hown
    obtain ⟨f', scope, rfl, hf'⟩ := hown
    have hfind := Program.function?_of_mem (P := ⟨flat, closures, natives⟩) hnames hd
    exact ⟨f', scope, hf'.name ▸ hfind, hf'⟩
  · obtain ⟨d, hd, hown⟩ := own hf
    rw [OwnOf, if_pos hb] at hown
    obtain ⟨b, rfl, hb'⟩ := hown
    have hfind := Program.find?_of_mem (P := ⟨flat, closures, natives⟩) hnames hd
    exact ⟨b, hb'.name ▸ hfind, hb'⟩

end

end Stagecraft.Flat
