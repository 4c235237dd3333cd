import Stagecraft.Proofs.Builds
import Stagecraft.Proofs.RunTimePrograms

/-!
# What is left of a definition that fails

A build reports a definition that fails and goes on with the rest. One that fails while it is staged
or converted leaves nothing behind: no closure body, and no artifact of the definition or of a
function split off from it (`fails_as_whole`). Flat definitions are emitted one by one, so a failure
there leaves out the flat definition it is reported for and no other.
-/

namespace Stagecraft.Residual.ResidualM

variable {α β : Type}

/-- Every answer of a computation satisfies a condition. -/
def Ensures (x : ResidualM α) (P : α → Prop) : Prop := ∀ ⦃s a s'⦄, x s = (.ok a, s') → P a

namespace Ensures

variable {P : α → Prop} {Q : β → Prop}

theorem pure {a : α} (h : P a) : Ensures (pure a) P := by
  intro s a' s' hrun
  cases hrun
  exact h

theorem bind {x : ResidualM α} {f : α → ResidualM β} (hf : ∀ a, (f a).Ensures Q) :
    (x >>= f).Ensures Q := by
  intro s b s' hrun
  rw [run_bind] at hrun
  split at hrun
  · exact hf _ hrun
  · cases hrun

theorem ite {c : Prop} [Decidable c] {x y : ResidualM α} (hx : x.Ensures P) (hy : y.Ensures P) :
    (if c then x else y).Ensures P := by
  split
  · exact hx
  · exact hy

end Ensures

end Stagecraft.Residual.ResidualM

namespace Stagecraft.Pipeline

open Staged (Table)
open Flat (ClosureTable helperName helperName_inj helperName_ne)
open Target (Artifact)

/-! ## Owners -/

/-- A name is that of a definition or of a helper split off from it. -/
def BelongsTo (name owner : DefName) : Prop := name = owner ∨ ∃ i, name = helperName owner i

/-- Owners without colons are unique. -/
theorem BelongsTo.unique {name a b : DefName} (ha : ':' ∉ a.name.toList) (hb : ':' ∉ b.name.toList)
    (hna : BelongsTo name a) (hnb : BelongsTo name b) : a = b := by
  rcases hna with rfl | ⟨i, rfl⟩
  · rcases hnb with rfl | ⟨j, hj⟩
    · rfl
    · exact absurd hj.symm (helperName_ne ha)
  · rcases hnb with hb' | ⟨j, hj⟩
    · exact absurd hb' (helperName_ne hb)
    · exact (helperName_inj ha hb hj).1

/-- What a conversion gives belongs to the definition that is converted. -/
theorem belongsTo_of_convert {table : Table} {before after : ClosureTable} {d : Staged.Definition}
    {flat : List Flat.Definition} (h : Flat.convert table before d = .ok (flat, after))
    {e : Flat.Definition} (he : e ∈ flat) : BelongsTo e.name d.name := by
  obtain ⟨own, helpers, bodies, rfl, -, hout⟩ := Flat.exists_isOutcome h
  rcases List.mem_append.1 he with he | he
  · exact .inl (hout.name_own e he)
  · obtain ⟨f, hf, rfl⟩ := List.mem_map.1 he
    exact .inr (Flat.exists_helperName_of_mem hout.names hf)

/-! ## Conversion -/

section

variable {table : Table}

theorem mem_of_flatten_failure {ds : List Staged.Definition} {closures : ClosureTable}
    {failure : DefName × BuildError} (h : failure ∈ (flatten table closures ds).2.2) :
    failure.1 ∈ ds.map Staged.Definition.name := by
  induction ds generalizing closures with
  | nil => cases h
  | cons d ds ih =>
    rw [flatten] at h
    cases hd : Flat.convert table closures d with
    | ok r =>
      rw [hd] at h
      exact List.mem_cons_of_mem _ (ih h)
    | error e =>
      rw [hd] at h
      rcases List.mem_cons.1 h with rfl | h
      · exact List.mem_cons_self
      · exact List.mem_cons_of_mem _ (ih h)

/-- A flat definition belongs to one whose conversion did not fail. -/
theorem exists_owner {ds : List Staged.Definition} {closures : ClosureTable}
    (hnames : (ds.map Staged.Definition.name).Nodup) {e : Flat.Definition}
    (he : e ∈ (flatten table closures ds).1) :
    ∃ d ∈ ds, BelongsTo e.name d.name ∧
      ∀ failure ∈ (flatten table closures ds).2.2, failure.1 ≠ d.name := by
  induction ds generalizing closures with
  | nil => cases he
  | cons d ds ih =>
    rw [List.map_cons, List.nodup_cons] at hnames
    rw [flatten] at he ⊢
    cases hd : Flat.convert table closures d with
    | error err =>
      rw [hd] at he
      obtain ⟨d', hd', howner, hfree⟩ := ih hnames.2 he
      refine ⟨d', List.mem_cons_of_mem _ hd', howner, List.forall_mem_cons.2 ⟨?_, hfree⟩⟩
      exact fun heq : d.name = d'.name => hnames.1 (heq ▸ List.mem_map_of_mem hd')
    | ok r =>
      rw [hd] at he
      rcases List.mem_append.1 he with he | he
      · refine ⟨d, List.mem_cons_self, belongsTo_of_convert hd he, fun failure hfailure heq => ?_⟩
        exact hnames.1 (heq ▸ mem_of_flatten_failure hfailure)
      · obtain ⟨d', hd', howner⟩ := ih hnames.2 he
        exact ⟨d', List.mem_cons_of_mem _ hd', howner⟩

end

/-! ## Staging -/

section

variable {cx : Eval.Context} {fuel : Nat}

/-- The residual of a definition is the definition, but for the body of a function. -/
theorem eq_of_residual? {d r : Staged.Definition}
    (h : Residual.residual? cx fuel d = .ok (some r)) :
    r = d ∨ ∃ f body, d = .function f ∧ r = .function { f with body := body } := by
  rcases d with _ | f | _
  · cases h
    exact .inl rfl
  · have hnone : (pure none : Residual.ResidualM (Option Staged.Function)).Ensures fun g? =>
        ∀ g ∈ g?, ∃ body, g = { f with body := body } := .pure fun g hg => nomatch hg
    have hensures : (Residual.residualFunction? cx fuel f).Ensures fun g? =>
        ∀ g ∈ g?, ∃ body, g = { f with body := body } := by
      unfold Residual.residualFunction?
      refine .ite hnone <| .bind fun _ => .ite hnone <| .bind fun _ => .ite hnone <| .ite ?_ ?_
      · exact .pure fun g hg => ⟨f.body, (Option.some.inj hg).symm⟩
      · exact .bind fun body => .pure fun g hg => ⟨body, (Option.some.inj hg).symm⟩
    obtain ⟨g?, hrun, hg⟩ : ∃ g?, ((Residual.residualFunction? cx fuel f).run.run .empty).1 =
        .ok g? ∧ g?.map Staged.Definition.function = some r := by
      unfold Residual.residual? at h
      cases hrun : ((Residual.residualFunction? cx fuel f).run.run .empty).1 with
      | error e => simp [hrun, Except.map] at h
      | ok g? => exact ⟨g?, rfl, by simpa [hrun, Except.map] using h⟩
    obtain ⟨g, rfl, rfl⟩ := Option.map_eq_some_iff.1 hg
    obtain ⟨body, rfl⟩ := hensures (Prod.ext hrun rfl) g rfl
    exact .inr ⟨f, body, rfl, rfl⟩
  · cases h
    exact .inl rfl

/-- The residual of a definition has its name. -/
theorem name_of_residual? {d r : Staged.Definition}
    (h : Residual.residual? cx fuel d = .ok (some r)) : r.name = d.name := by
  obtain rfl | ⟨f, body, rfl, rfl⟩ := eq_of_residual? h
  · rfl
  · rfl

/-- What staging a definition adds: nothing, its residual, or a failure. -/
theorem exists_of_residuals?_cons {d : Staged.Definition} {ds staged : List Staged.Definition}
    {failures : Failures} (h : residuals? cx fuel (d :: ds) = some (staged, failures)) :
    ∃ rest more, residuals? cx fuel ds = some (rest, more) ∧
      (staged = rest ∧ failures = more ∨
        (∃ r, r.name = d.name ∧ staged = r :: rest ∧ failures = more) ∨
          ∃ e, staged = rest ∧ failures = (d.name, .staging e) :: more) := by
  rw [residuals?] at h
  cases hrest : residuals? cx fuel ds with
  | none =>
    rw [hrest] at h
    split at h <;> cases h
  | some r =>
    obtain ⟨rest, more⟩ := r
    rw [hrest] at h
    refine ⟨rest, more, rfl, ?_⟩
    split at h
    · cases h
      exact .inl ⟨rfl, rfl⟩
    · next r hd =>
      cases h
      exact .inr (.inl ⟨r, name_of_residual? hd, rfl, rfl⟩)
    · next e hd =>
      cases h
      exact .inr (.inr ⟨e, rfl, rfl⟩)
    · cases h

/-- What is staged has the name of a definition that did not fail. -/
theorem names_of_residuals? {ds staged : List Staged.Definition} {failures : Failures}
    (hnames : (ds.map Staged.Definition.name).Nodup)
    (h : residuals? cx fuel ds = some (staged, failures)) :
    (staged.map Staged.Definition.name).Sublist (ds.map Staged.Definition.name) ∧
      ∀ failure ∈ failures, failure.1 ∈ ds.map Staged.Definition.name ∧
        failure.1 ∉ staged.map Staged.Definition.name := by
  induction ds generalizing staged failures with
  | nil =>
    cases h
    exact ⟨.slnil, fun _ hf => nomatch hf⟩
  | cons d ds ih =>
    rw [List.map_cons, List.nodup_cons] at hnames
    obtain ⟨rest, more, hrest, hcases⟩ := exists_of_residuals?_cons h
    obtain ⟨hsub, hfailures⟩ := ih hnames.2 hrest
    rcases hcases with ⟨rfl, rfl⟩ | ⟨r, hr, rfl, rfl⟩ | ⟨e, rfl, rfl⟩
    · exact ⟨hsub.cons _, fun failure hf =>
        ⟨List.mem_cons_of_mem _ (hfailures failure hf).1, (hfailures failure hf).2⟩⟩
    · refine ⟨?_, fun failure hf => ⟨List.mem_cons_of_mem _ (hfailures failure hf).1, ?_⟩⟩
      · rw [List.map_cons, List.map_cons, hr]
        exact hsub.cons_cons _
      · rw [List.map_cons, List.mem_cons, not_or, hr]
        exact ⟨fun heq => hnames.1 (heq ▸ (hfailures failure hf).1), (hfailures failure hf).2⟩
    · refine ⟨hsub.cons _, List.forall_mem_cons.2 ⟨⟨List.mem_cons_self, ?_⟩, fun failure hf =>
        ⟨List.mem_cons_of_mem _ (hfailures failure hf).1, (hfailures failure hf).2⟩⟩⟩
      exact fun hmem => hnames.1 (hsub.subset hmem)

end

/-! ## Emission -/

section

variable {options : Emit.Options} {flat : List Flat.Definition}

theorem exists_of_mem_artifacts {a : Artifact} (h : a ∈ (artifacts options flat).1) :
    ∃ d ∈ flat, Emit.artifact? options d = .ok (some a) := by
  induction flat with
  | nil => cases h
  | cons d flat ih =>
    rw [artifacts] at h
    have hlater : a ∈ (artifacts options flat).1 →
        ∃ d' ∈ d :: flat, Emit.artifact? options d' = .ok (some a) := fun h => by
      obtain ⟨d', hd', ha⟩ := ih h
      exact ⟨d', List.mem_cons_of_mem _ hd', ha⟩
    cases hd : Emit.artifact? options d with
    | error e =>
      rw [hd] at h
      exact hlater h
    | ok a? =>
      rw [hd] at h
      cases a? with
      | none => exact hlater h
      | some a' =>
        rcases List.mem_cons.1 h with rfl | h
        · exact ⟨d, List.mem_cons_self, hd⟩
        · exact hlater h

theorem exists_of_mem_emission {failure : DefName × BuildError}
    (h : failure ∈ (artifacts options flat).2) : ∃ e, failure.2 = .emission e := by
  induction flat with
  | nil => cases h
  | cons d flat ih =>
    rw [artifacts] at h
    cases hd : Emit.artifact? options d with
    | error e =>
      rw [hd] at h
      rcases List.mem_cons.1 h with rfl | h
      · exact ⟨e, rfl⟩
      · exact ih h
    | ok a? =>
      rw [hd] at h
      cases a? <;> exact ih h

end

/-! ## Builds -/

/-- What goes from one phase of a build to the next: the definitions that are staged have names of
the table, each of its own; they are the table to convert in, and what they are converted to is
emitted. -/
theorem phases_of_build? {fuel : Nat} {settings : Settings} {natives : Eval.Natives} {table : Table}
    {b : Build} (h : build? fuel settings natives table = some b) : ∃ staged failures,
      residuals? ⟨table, natives, settings.unfoldLimit⟩ fuel table.definitions =
        some (staged, failures) ∧
      (staged.map Staged.Definition.name).Sublist (table.definitions.map Staged.Definition.name) ∧
      (Table.ofList staged).definitions = staged ∧
      b.closures = (flatten (.ofList staged) .empty staged).2.1 ∧
      b.artifacts =
        (artifacts settings.emitOptions (flatten (.ofList staged) .empty staged).1).1 ++
          [Emit.dispatcher settings.emitOptions b.closures] ∧
      b.failures = failures ++ (flatten (.ofList staged) .empty staged).2.2 ++
        (artifacts settings.emitOptions (flatten (.ofList staged) .empty staged).1).2 := by
  unfold build? at h
  obtain ⟨⟨staged, failures⟩, hstaged, h⟩ := Option.bind_eq_some_iff.1 h
  obtain ⟨hsub, -⟩ := names_of_residuals? table.nodup hstaged
  have hdefinitions := Table.definitions_ofList (hsub.nodup table.nodup)
  cases h
  refine ⟨staged, failures, hstaged, hsub, hdefinitions, ?_⟩
  simp only [hdefinitions, and_self]

/-- **A definition that fails leaves nothing behind.** If a build reports that staging or conversion
of a definition failed, no closure body belongs to the definition, and so no guard of the dispatcher
calls one; and every artifact but the dispatcher is that of a flat definition that does not belong
to it either. Names of definitions are free of colons. -/
theorem fails_as_whole {fuel : Nat} {settings : Settings} {natives : Eval.Natives} {table : Table}
    {b : Build} (hb : build? fuel settings natives table = some b)
    (hcolon : ∀ d ∈ table.definitions, ':' ∉ d.name.name.toList) {owner : DefName} {e : BuildError}
    (he : (owner, e) ∈ b.failures) (hphase : ∀ e', e ≠ .emission e') :
    (∀ name ∈ b.closures.bodies, ¬ BelongsTo name owner) ∧
      ∀ a ∈ b.artifacts, a = Emit.dispatcher settings.emitOptions b.closures ∨
        ∃ d, Emit.artifact? settings.emitOptions d = .ok (some a) ∧ ¬ BelongsTo d.name owner := by
  unfold build? at hb
  obtain ⟨⟨staged, stagingFailures⟩, hstaged, hb⟩ := Option.bind_eq_some_iff.1 hb
  cases hb
  obtain ⟨hsub, hstaging⟩ := names_of_residuals? table.nodup hstaged
  have hdefinitions := Table.definitions_ofList (hsub.nodup table.nodup)
  have hfree : ∀ name ∈ table.definitions.map Staged.Definition.name, ':' ∉ name.name.toList := by
    rintro name hname
    obtain ⟨d, hd, rfl⟩ := List.mem_map.1 hname
    exact hcolon d hd
  -- what is converted belongs to definitions that failed neither before nor there
  have hflat : ∀ d ∈ (flatten (.ofList staged) .empty (Table.ofList staged).definitions).1,
      ¬ BelongsTo d.name owner := by
    intro d hd howner
    rw [hdefinitions] at hd he
    obtain ⟨d', hd', hbelongs, hconversion⟩ := exists_owner (hsub.nodup table.nodup) hd
    have hstayed : d'.name ∈ staged.map Staged.Definition.name := List.mem_map_of_mem hd'
    have hmem : owner ∈ table.definitions.map Staged.Definition.name ∧ owner ≠ d'.name := by
      rcases List.mem_append.1 he with he | he
      · rcases List.mem_append.1 he with he | he
        · obtain ⟨howner, hgone⟩ := hstaging _ he
          exact ⟨howner, fun heq => hgone (heq ▸ hstayed)⟩
        · exact ⟨hsub.subset (mem_of_flatten_failure he), hconversion _ he⟩
      · obtain ⟨e', he'⟩ := exists_of_mem_emission he
        exact absurd he' (hphase e')
    exact hmem.2 (howner.unique (hfree _ hmem.1) (hfree _ (hsub.subset hstayed)) hbelongs)
  refine ⟨fun name hname => ?_, fun a ha => ?_⟩
  · obtain ⟨tag, htag⟩ := List.mem_iff_getElem?.1 hname
    obtain ⟨f, hf, rfl, -⟩ := exists_body _ _ htag
    exact hflat _ hf
  · rcases List.mem_append.1 ha with ha | ha
    · obtain ⟨d, hd, hemitted⟩ := exists_of_mem_artifacts ha
      exact .inr ⟨d, hemitted, hflat d hd⟩
    · exact .inl (List.mem_singleton.1 ha)

/-- A function that makes a local function and a box, for which there is no code. -/
def boxMaker : Staged.Function where
  marks := []
  name := ⟨["main"], "f"⟩
  binder := .var (Staged.Pattern.plain .int) ⟨"x", 0⟩
  result := .tuple [.function .int .int, .ref .int]
  body := .ofTuple [
    .ofLambda (.var (Staged.Pattern.plain .int) ⟨"y", 1⟩) (.var .int ⟨"y", 1⟩),
    .ref (.ref .int) (.var .int ⟨"x", 0⟩)]

/-- The body of the local function is emitted, and the dispatcher calls it, although the function it
was split off from fails. -/
example : (build? 0 .standard .prelude (.ofList [.function boxMaker])).map (fun b =>
    (b.failures.map (·.1.name), b.closures.bodies.map (·.name),
      b.artifacts.map (·.location.path))) =
    some (["f"], ["f:0"], ["main/f.1m0", "mcx/dispatch"]) := by
  decide +kernel

end Stagecraft.Pipeline
