import Stagecraft.Proofs.CallTargets
import Stagecraft.Proofs.Locations

/-!
# What becomes of a definition

A build takes every definition of its table one of five ways: it belongs to compile time, it is a
type alias or a builtin and leaves nothing to emit, it is emitted, or its failure is reported. Here
is that the five exclude each other and leave no gap, and in which order the artifacts come
(`accounts_for_definitions`).

The argument splits a build into the parts that its definitions have in it (`Yields`,
`exists_yields`). Everything in the part of a definition belongs to it, so what a build says under
the name of a definition is in its part (`filter_name_flatMap`).
-/

namespace Stagecraft.Flat

open Staged (Table)

/-! ## The form of a converted definition -/

/-- What stands for a definition itself among what it is converted to: nothing for a type alias, the
interface of a builtin, and otherwise a definition with a body. -/
inductive IsFormOf : Staged.Definition → List Definition → Prop
  | typeAlias (a : Staged.TypeAlias) : IsFormOf (.alias a) []
  | builtin {f : Staged.Function} {b : Builtin} (name : b.name = f.name) :
      IsFormOf (.function f) [.builtin b]
  | function {f : Staged.Function} {g : Function} (name : g.name = f.name) :
      IsFormOf (.function f) [.function g]
  | resource {r : Staged.Resource} {s : Resource} (name : s.name = r.name) :
      IsFormOf (.resource r) [.resource s]

theorem IsFormOf.name_eq {d : Staged.Definition} {own : List Definition} (h : IsFormOf d own) :
    ∀ e ∈ own, e.name = d.name := by
  cases h with
  | typeAlias => exact fun _ he => nomatch he
  | builtin hname => exact List.forall_mem_singleton.2 hname
  | function hname => exact List.forall_mem_singleton.2 hname
  | resource hname => exact List.forall_mem_singleton.2 hname

theorem isFormOf_of_run {table : Table} {site : Site} {d : Staged.Definition} {p p' : Progress}
    {own : List Definition} (h : (Definition.ofStaged table site d).run p = .ok (own, p')) :
    IsFormOf d own := by
  unfold Definition.ofStaged at h
  rcases d with r | f | a
  · simp only [StateT.run_bind, Except.bind_ok] at h
    obtain ⟨_, -, _, -, h⟩ := h
    cases h
    exact .resource rfl
  · rw [StateT.run_bind, Except.bind_ok] at h
    obtain ⟨⟨e, progress⟩, he, h⟩ := h
    cases h
    unfold Definition.ofStagedFunction at he
    rw [StateT.run_bind, Except.bind_ok] at he
    obtain ⟨_, -, he⟩ := he
    split at he <;> simp only [StateT.run_bind, Except.bind_ok] at he
    · obtain ⟨_, -, _, -, he⟩ := he
      cases he
      exact .builtin rfl
    · obtain ⟨_, -, _, -, _, -, he⟩ := he
      cases he
      exact .function rfl
  · cases h
    exact .typeAlias a

/-- A definition is converted to one that stands for it and helpers, which are counted in the order
in which they were split off. -/
theorem exists_form_of_convert {table : Table} {before after : ClosureTable} {d : Staged.Definition}
    {flat : List Definition} (h : convert table before d = .ok (flat, after)) :
    ∃ (own : List Definition) (helpers : List Function), flat = own ++ helpers.map .function ∧
      IsFormOf d own ∧
      helpers.map (·.name) = (List.range helpers.length).map (helperName d.name) := by
  unfold convert at h
  rw [Except.bind_ok] at h
  obtain ⟨⟨own, progress⟩, hrun, h⟩ := h
  cases h
  have hreg := @registers_callsKnown_definition table progress ⟨d.name, before.size⟩ True d
  obtain ⟨hkept, -⟩ := (hreg hrun).2 trivial (.refl progress)
    ⟨Progress.numbered_empty _, fun f hf => nomatch hf⟩
  exact ⟨own, progress.helpers, rfl, isFormOf_of_run hrun, hkept.numbered.names⟩

/-- Flat definitions that stand for a name: at most one of that name, and behind it the helpers
split off from it, in the order in which they were. -/
def IsFamily (name : DefName) (flat : List Definition) : Prop :=
  ∃ (own : List Definition) (helpers : List Function), flat = own ++ helpers.map .function ∧
    own.length ≤ 1 ∧ (∀ e ∈ own, e.name = name) ∧
      helpers.map (·.name) = (List.range helpers.length).map (helperName name)

end Stagecraft.Flat

namespace Stagecraft.Emit

/-- The artifact of a flat definition that has one and does not fail. -/
def emitted? (options : Options) (d : Flat.Definition) : Option Target.Artifact :=
  (artifact? options d).toOption.join

end Stagecraft.Emit

namespace Stagecraft.Pipeline

open Staged (Table)
open Flat (ClosureTable helperName helperName_ne_self)
open Target (Artifact Location)

/-! ## Emission -/

section

variable {options : Emit.Options}

theorem artifacts_eq_filterMap (flat : List Flat.Definition) :
    (artifacts options flat).1 = flat.filterMap (Emit.emitted? options) := by
  induction flat with
  | nil => rfl
  | cons d flat ih =>
    rw [artifacts, List.filterMap_cons, Emit.emitted?, ← ih]
    rcases Emit.artifact? options d with e | _ | a <;> rfl

variable (options) in
/-- The artifacts at the location of a name are those of the definitions of the name. -/
theorem count_location {flat : List Flat.Definition} {n : DefName} (hn : n.IsLocatable)
    (hflat : ∀ e ∈ flat, e.name.IsLocatable) :
    ((artifacts options flat).1.map Artifact.location).count (.ofName options.nspace n) =
      (artifacts options (flat.filter (·.name = n))).1.length := by
  induction flat with
  | nil => rfl
  | cons d flat ih =>
    obtain ⟨hd, hflat⟩ := List.forall_mem_cons.1 hflat
    have hrest := ih hflat
    have hlocation :
        Location.ofName options.nspace d.name = .ofName options.nspace n ↔ d.name = n :=
      ⟨DefName.ofName_inj hd hn, congrArg _⟩
    rw [List.filter_cons]
    cases hartifact : Emit.artifact? options d with
    | error e => split <;> simpa only [artifacts, hartifact] using hrest
    | ok a? =>
      cases a? with
      | none => split <;> simpa only [artifacts, hartifact] using hrest
      | some a =>
        simp only [artifacts, hartifact, List.map_cons, List.count_cons, beq_iff_eq, hrest,
          location_of_artifact? hartifact, hlocation, decide_eq_true_eq]
        split <;> simp only [artifacts, hartifact, List.length_cons, Nat.add_zero]

/-- The failures to emit under a name are those of the definitions of the name. -/
theorem count_emission (flat : List Flat.Definition) (n : DefName) :
    ((artifacts options flat).2.map (·.1)).count n =
      (artifacts options (flat.filter (·.name = n))).2.length := by
  induction flat with
  | nil => rfl
  | cons d flat ih =>
    rw [List.filter_cons]
    cases hartifact : Emit.artifact? options d with
    | error e =>
      simp only [artifacts, hartifact, List.map_cons, List.count_cons, beq_iff_eq, ih,
        decide_eq_true_eq]
      split <;> simp only [artifacts, hartifact, List.length_cons, Nat.add_zero]
    | ok a? => cases a? <;> split <;> simpa only [artifacts, hartifact] using ih

end

/-! ## Parts of a build -/

section

variable {cx : Eval.Context} {fuel : Nat} {table : Table}

variable (cx fuel table) in
/-- The part that a definition has in a build, up to emission: what it is converted to, and the
failures before that. -/
inductive Yields (d : Staged.Definition) : List Flat.Definition → Failures → Prop
  | pruned (staged : Residual.residual? cx fuel d = .ok none) : Yields d [] []
  | stuck {e : Residual.Error} (staged : Residual.residual? cx fuel d = .error (.failed e)) :
      Yields d [] [(d.name, .staging e)]
  | rejected {r : Staged.Definition} {e : Flat.Error} {before : ClosureTable}
      (staged : Residual.residual? cx fuel d = .ok (some r))
      (converted : Flat.convert table before r = .error e) : Yields d [] [(d.name, .conversion e)]
  | converted {r : Staged.Definition} {flat : List Flat.Definition} {before after : ClosureTable}
      (staged : Residual.residual? cx fuel d = .ok (some r))
      (converted : Flat.convert table before r = .ok (flat, after)) : Yields d flat []

variable (table) in
/-- Up to emission a build consists of the parts of its definitions, in their order. Failures come
phase by phase. -/
theorem exists_yields {ds staged : List Staged.Definition} {failures : Failures}
    (h : residuals? cx fuel ds = some (staged, failures)) (closures : ClosureTable) :
    ∃ parts : List (List Flat.Definition × Failures),
      List.Forall₂ (fun d part => Yields cx fuel table d part.1 part.2) ds parts ∧
      (flatten table closures staged).1 = parts.flatMap (·.1) ∧
      (failures ++ (flatten table closures staged).2.2).Perm (parts.flatMap (·.2)) := by
  induction ds generalizing staged failures closures with
  | nil =>
    cases h
    exact ⟨[], .nil, rfl, .nil⟩
  | cons d ds ih =>
    rw [residuals?] at h
    cases hrest : residuals? cx fuel ds with
    | none =>
      rw [hrest] at h
      split at h <;> cases h
    | some rest =>
      obtain ⟨rest, more⟩ := rest
      rw [hrest] at h
      split at h
      · next hd =>
        cases h
        obtain ⟨parts, hparts, hflat, hfailures⟩ := ih hrest closures
        exact ⟨([], []) :: parts, .cons (.pruned hd) hparts, hflat, hfailures⟩
      · next r hd =>
        cases h
        cases hconvert : Flat.convert table closures r with
        | error e =>
          obtain ⟨parts, hparts, hflat, hfailures⟩ := ih hrest closures
          refine ⟨([], [(d.name, .conversion e)]) :: parts, .cons (.rejected hd hconvert) hparts,
            ?_, ?_⟩ <;> simp only [List.singleton_append, flatten, hconvert]
          · exact hflat
          · rw [name_of_residual? hd]
            exact List.perm_middle.trans (hfailures.cons _)
        | ok r' =>
          obtain ⟨flat, after⟩ := r'
          obtain ⟨parts, hparts, hflat, hfailures⟩ := ih hrest after
          refine ⟨(flat, []) :: parts, .cons (.converted hd hconvert) hparts, ?_, ?_⟩ <;>
            simp only [List.singleton_append, flatten, hconvert]
          · rw [hflat, List.flatMap_cons]
          · exact hfailures
      · next e hd =>
        cases h
        obtain ⟨parts, hparts, hflat, hfailures⟩ := ih hrest closures
        exact ⟨([], [(d.name, .staging e)]) :: parts, .cons (.stuck hd) hparts, hflat,
          hfailures.cons _⟩
      · cases h

namespace Yields

variable {d : Staged.Definition} {flat : List Flat.Definition} {failures : Failures}
  (h : Yields cx fuel table d flat failures)

include h

theorem isFamily : Flat.IsFamily d.name flat := by
  cases h with
  | converted hstaged hconverted =>
    obtain ⟨own, helpers, hflat, hform, hnames⟩ := Flat.exists_form_of_convert hconverted
    rw [← name_of_residual? hstaged]
    exact ⟨own, helpers, hflat, by cases hform <;> simp, hform.name_eq, hnames⟩
  | _ => exact ⟨[], [], rfl, Nat.zero_le 1, fun _ he => (nomatch he), rfl⟩

theorem belongsTo {e : Flat.Definition} (he : e ∈ flat) : BelongsTo e.name d.name := by
  obtain ⟨own, helpers, rfl, -, hown, hnames⟩ := h.isFamily
  rcases List.mem_append.1 he with he | he
  · exact .inl (hown e he)
  · obtain ⟨f, hf, rfl⟩ := List.mem_map.1 he
    exact .inr (Flat.exists_helperName_of_mem hnames hf)

theorem name_of_failure {failure : DefName × BuildError} (hf : failure ∈ failures) :
    failure.1 = d.name := by
  cases h with
  | stuck | rejected => exact List.mem_singleton.1 hf ▸ rfl
  | pruned | converted => cases hf

/-- A part says nothing under the name of another definition. -/
theorem filter_name_of_ne (hd : ':' ∉ d.name.name.toList) {n : DefName}
    (hn : ':' ∉ n.name.toList) (hne : d.name ≠ n) :
    flat.filter (·.name = n) = [] ∧ failures.filter (·.1 = n) = [] := by
  constructor
  · refine List.filter_eq_nil_iff.2 fun e he heq => hne ?_
    exact (h.belongsTo he).unique hd hn (.inl (of_decide_eq_true heq))
  · refine List.filter_eq_nil_iff.2 fun failure hf heq => hne ?_
    exact (h.name_of_failure hf).symm.trans (of_decide_eq_true heq)

end Yields

theorem exists_belongsTo_of_mem {ds : List Staged.Definition}
    {parts : List (List Flat.Definition × Failures)}
    (h : List.Forall₂ (fun d part => Yields cx fuel table d part.1 part.2) ds parts)
    {e : Flat.Definition} (he : e ∈ parts.flatMap (·.1)) : ∃ d ∈ ds, BelongsTo e.name d.name := by
  induction h with
  | nil => cases he
  | @cons d part ds parts hd _ ih =>
    rw [List.flatMap_cons, List.mem_append] at he
    rcases he with he | he
    · exact ⟨d, List.mem_cons_self, hd.belongsTo he⟩
    · obtain ⟨d', hd', hbelongs⟩ := ih he
      exact ⟨d', List.mem_cons_of_mem _ hd', hbelongs⟩

/-- The parts of definitions of other names say nothing under a name. -/
theorem filter_name_of_notMem {ds : List Staged.Definition}
    {parts : List (List Flat.Definition × Failures)}
    (h : List.Forall₂ (fun d part => Yields cx fuel table d part.1 part.2) ds parts)
    (hcolon : ∀ d ∈ ds, ':' ∉ d.name.name.toList) {n : DefName} (hn : ':' ∉ n.name.toList)
    (hnot : n ∉ ds.map Staged.Definition.name) :
    (parts.flatMap (·.1)).filter (·.name = n) = [] ∧
      (parts.flatMap (·.2)).filter (·.1 = n) = [] := by
  induction h with
  | nil => exact ⟨rfl, rfl⟩
  | @cons d part ds parts hd _ ih =>
    rw [List.map_cons, List.mem_cons, not_or] at hnot
    obtain ⟨hdcolon, hcolon⟩ := List.forall_mem_cons.1 hcolon
    obtain ⟨hflat, hfailures⟩ := hd.filter_name_of_ne hdcolon hn (Ne.symm hnot.1)
    obtain ⟨hflat', hfailures'⟩ := ih hcolon hnot.2
    simp only [List.flatMap_cons, List.filter_append, hflat, hfailures, hflat', hfailures',
      List.append_nil, and_self]

/-- What the parts say under the name of a definition is in its own part. -/
theorem filter_name_flatMap {ds : List Staged.Definition}
    {parts : List (List Flat.Definition × Failures)}
    (h : List.Forall₂ (fun d part => Yields cx fuel table d part.1 part.2) ds parts)
    (hnodup : (ds.map Staged.Definition.name).Nodup)
    (hcolon : ∀ d ∈ ds, ':' ∉ d.name.name.toList) {d : Staged.Definition} (hd : d ∈ ds) :
    ∃ flat failures, Yields cx fuel table d flat failures ∧
      (parts.flatMap (·.1)).filter (·.name = d.name) = flat.filter (·.name = d.name) ∧
      (parts.flatMap (·.2)).filter (·.1 = d.name) = failures.filter (·.1 = d.name) := by
  induction h with
  | nil => cases hd
  | @cons e part ds parts he hparts ih =>
    rw [List.map_cons, List.nodup_cons] at hnodup
    obtain ⟨hecolon, htail⟩ := List.forall_mem_cons.1 hcolon
    simp only [List.flatMap_cons, List.filter_append]
    rcases List.mem_cons.1 hd with rfl | hd
    · -- no other definition has the name
      obtain ⟨hflat, hfailures⟩ := filter_name_of_notMem hparts htail hecolon hnodup.1
      exact ⟨part.1, part.2, he, by rw [hflat, List.append_nil], by rw [hfailures, List.append_nil]⟩
    · obtain ⟨flat, failures, hyields, hflat, hfailures⟩ := ih hnodup.2 htail hd
      have hne : e.name ≠ d.name := fun heq => hnodup.1 (heq ▸ List.mem_map_of_mem hd)
      obtain ⟨hflat', hfailures'⟩ := he.filter_name_of_ne hecolon (htail d hd) hne
      exact ⟨flat, failures, hyields, by rw [hflat', List.nil_append, hflat],
        by rw [hfailures', List.nil_append, hfailures]⟩

/-! ## Fates -/

/-- What becomes of a definition in a build. -/
inductive Fate where
  /-- It belongs to compile time. -/
  | pruned
  /-- It is a type alias, of which nothing is left. -/
  | typeAlias
  /-- It is a builtin, of which the interface is left. -/
  | builtin
  | emitted
  | failed
deriving DecidableEq

variable (cx fuel) in
/-- What it takes for one of these to become of a definition in a build, which has certain flat
definitions behind it. -/
def Build.Becomes (b : Build) (flat : List Flat.Definition) (nspace : String)
    (d : Staged.Definition) : Fate → Prop
  | .pruned => Residual.residual? cx fuel d = .ok none
  | .typeAlias => ∃ a, Residual.residual? cx fuel d = .ok (some (.alias a))
  | .builtin => ∃ g, .builtin g ∈ flat ∧ g.name = d.name
  | .emitted => (b.artifacts.map Artifact.location).count (.ofName nspace d.name) = 1
  | .failed => (b.failures.map (·.1)).count d.name = 1

variable (cx fuel) in
/-- A build accounts for the definitions of a table that are left at run time as `staged` and that
are converted, one by one, to `lifted`. -/
structure Build.Accounts (b : Build) (options : Emit.Options) (ds staged : List Staged.Definition)
    (lifted : List (List Flat.Definition)) : Prop where
  staging : ∃ failures, residuals? cx fuel ds = some (staged, failures)
  conversion : List.Forall₂ (fun d flat => Flat.IsFamily d.name flat ∧
    ∃ failures, Yields cx fuel (.ofList staged) d flat failures) ds lifted
  /-- One thing becomes of each definition. -/
  fate : ∀ d ∈ ds, ∃! fate, b.Becomes cx fuel lifted.flatten options.nspace d fate
  /-- What is emitted comes in the order of the definitions, and the dispatcher last. -/
  order : b.artifacts = lifted.flatMap (List.filterMap (Emit.emitted? options)) ++
    [Emit.dispatcher options b.closures]

theorem Fate.existsUnique {P : Fate → Prop} (f : Fate) (h : ∀ g, P g ↔ g = f) : ∃! g, P g :=
  ⟨f, (h f).2 rfl, fun g hg => (h g).1 hg⟩

/-- A part decides what becomes of its definition, where a build says no more under the name of the
definition than the part does. -/
theorem Yields.existsUnique_fate (options : Emit.Options) {b : Build} {all : List Flat.Definition}
    {d : Staged.Definition} {flat : List Flat.Definition} {failures : Failures}
    (h : Yields cx fuel table d flat failures)
    (hall : all.filter (·.name = d.name) = flat.filter (·.name = d.name))
    (hemitted : (b.artifacts.map Artifact.location).count (.ofName options.nspace d.name) =
      (artifacts options (flat.filter (·.name = d.name))).1.length)
    (hfailed : (b.failures.map (·.1)).count d.name =
      failures.length + (artifacts options (flat.filter (·.name = d.name))).2.length) :
    ∃! fate, b.Becomes cx fuel all options.nspace d fate := by
  have hbuiltin : (∃ g, .builtin g ∈ all ∧ g.name = d.name) ↔
      ∃ g, .builtin g ∈ flat.filter (·.name = d.name) := by
    simp only [← hall, List.mem_filter, decide_eq_true_eq]
    rfl
  cases h with
  | pruned hstaged =>
    refine Fate.existsUnique .pruned fun g => ?_
    cases g <;> simp [Build.Becomes, hstaged, hbuiltin, hemitted, hfailed, artifacts]
  | stuck hstaged =>
    refine Fate.existsUnique .failed fun g => ?_
    cases g <;> simp [Build.Becomes, hstaged, hbuiltin, hemitted, hfailed, artifacts]
  | @rejected r e before hstaged hconverted =>
    have hr : ∀ a, r ≠ .alias a := by
      rintro a rfl
      cases hconverted
    refine Fate.existsUnique .failed fun g => ?_
    cases g <;> simp [Build.Becomes, hstaged, hr, hbuiltin, hemitted, hfailed, artifacts]
  | @converted r flat before after hstaged hconverted =>
    obtain ⟨own, helpers, rfl, hform, hnames⟩ := Flat.exists_form_of_convert hconverted
    rw [name_of_residual? hstaged] at hnames
    have hhelpers : (helpers.map Flat.Definition.function).filter (·.name = d.name) = [] := by
      refine List.filter_eq_nil_iff.2 fun e he heq => ?_
      obtain ⟨f, hf, rfl⟩ := List.mem_map.1 he
      obtain ⟨i, hi⟩ := Flat.exists_helperName_of_mem hnames hf
      exact helperName_ne_self d.name i (hi.symm.trans (of_decide_eq_true heq))
    have hown : own.filter (·.name = d.name) = own := List.filter_eq_self.2 fun e he =>
      decide_eq_true ((hform.name_eq e he).trans (name_of_residual? hstaged))
    rw [List.filter_append, hhelpers, hown, List.append_nil] at hemitted hfailed hbuiltin
    -- what has code is emitted or fails
    have existsUnique_of_emission : ∀ {e : Flat.Definition}, Emit.artifact? options e ≠ .ok none →
        (∀ g, e ≠ .builtin g) → own = [e] → (∀ a, r ≠ .alias a) →
          ∃! fate, b.Becomes cx fuel all options.nspace d fate := by
      rintro e hemission hcode rfl hr
      cases hartifact : Emit.artifact? options e with
      | error =>
        refine Fate.existsUnique .failed fun g => ?_
        cases g <;> simp [Build.Becomes, hstaged, hr, hbuiltin, hemitted, hfailed, artifacts,
          hartifact, (hcode _).symm]
      | ok a? =>
        cases a? with
        | none => exact absurd hartifact hemission
        | some a =>
          refine Fate.existsUnique .emitted fun g => ?_
          cases g <;> simp [Build.Becomes, hstaged, hr, hbuiltin, hemitted, hfailed, artifacts,
            hartifact, (hcode _).symm]
    cases hform with
    | typeAlias a =>
      refine Fate.existsUnique .typeAlias fun g => ?_
      cases g <;> simp [Build.Becomes, hstaged, hbuiltin, hemitted, hfailed, artifacts]
    | builtin =>
      refine Fate.existsUnique .builtin fun g => ?_
      cases g <;>
        simp [Build.Becomes, hstaged, hbuiltin, hemitted, hfailed, artifacts, Emit.artifact?]
    | @function f g =>
      have hemission : Emit.artifact? options (.function g) ≠ .ok none := by
        rw [Emit.artifact?]
        cases Emit.function options g <;> rintro ⟨⟩
      exact existsUnique_of_emission hemission (by simp) rfl (by simp)
    | @resource r s =>
      have hemission : Emit.artifact? options (.resource s) ≠ .ok none := by
        rw [Emit.artifact?]
        cases Emit.tree s.body <;> rintro ⟨⟩
      exact existsUnique_of_emission hemission (by simp) rfl (by simp)

end

/-- **A build accounts for every definition.** In a table in which the name of every definition is
locatable, has no colon in it and is not that of the dispatcher, exactly one thing becomes of each
definition: it is pruned, a type alias, a builtin that is converted, emitted at its location once,
or reported under its name once. The artifacts are, in the order of the table, those of what each
definition is converted to, the definition itself before its helpers and these in the order in which
they were split off, so far as they do not fail; the dispatcher comes last. -/
theorem accounts_for_definitions {fuel : Nat} {settings : Settings} {natives : Eval.Natives}
    {table : Table} {b : Build} (hbuild : build? fuel settings natives table = some b)
    (hnames : ∀ d ∈ table.definitions,
      ':' ∉ d.name.name.toList ∧ d.name.IsLocatable ∧ d.name ≠ Flat.dispatcher) :
    ∃ staged lifted, b.Accounts ⟨table, natives, settings.unfoldLimit⟩ fuel settings.emitOptions
      table.definitions staged lifted := by
  obtain ⟨staged, failures, hstaged, -, -, -, hartifacts, hfailures⟩ := phases_of_build? hbuild
  obtain ⟨parts, hparts, hflat, hperm⟩ := exists_yields (.ofList staged) hstaged .empty
  have hlocatable : ∀ e ∈ parts.flatMap (·.1), e.name.IsLocatable := by
    intro e he
    obtain ⟨d, hd, hbelongs⟩ := exists_belongsTo_of_mem hparts he
    exact hbelongs.isLocatable (hnames d hd).2.1
  refine ⟨staged, parts.map (·.1), ⟨failures, hstaged⟩, ?_, fun d hd => ?_, ?_⟩
  · rw [List.forall₂_map_right_iff]
    exact hparts.imp fun d part h => ⟨h.isFamily, part.2, h⟩
  · obtain ⟨hcolon, hd', hdispatcher⟩ := hnames d hd
    obtain ⟨flat, own, hyields, hflatName, hownName⟩ :=
      filter_name_flatMap hparts table.nodup (fun d hd => (hnames d hd).1) hd
    refine hyields.existsUnique_fate settings.emitOptions ?_ ?_ ?_
    · rwa [← List.flatMap_def]
    · have hlast : ([Emit.dispatcher settings.emitOptions b.closures].map Artifact.location).count
          (.ofName settings.nspace d.name) = 0 := by
        refine List.count_eq_zero.2 fun hmem => hdispatcher ?_
        exact DefName.ofName_inj hd' Flat.isLocatable_dispatcher (List.mem_singleton.1 hmem)
      have hfirst := count_location settings.emitOptions hd' hlocatable
      rw [hflatName] at hfirst
      rw [hartifacts, List.map_append, List.count_append, hflat]
      exact congrArg₂ (· + ·) hfirst hlast
    · have hown : (own.filter (·.1 = d.name)) = own := List.filter_eq_self.2 fun failure hf =>
        decide_eq_true (hyields.name_of_failure hf)
      have hearly : ((parts.flatMap (·.2)).map (·.1)).count d.name = own.length := by
        rw [List.count_eq_countP, List.countP_map, List.countP_eq_length_filter, ← hown, ← hownName]
        rfl
      rw [hfailures, List.map_append, List.count_append, hflat, count_emission, hflatName,
        (hperm.map _).count_eq, hearly]
  · rw [hartifacts, hflat, artifacts_eq_filterMap, List.flatMap_map, List.filterMap_flatMap]

/-- A static function, a type alias, a builtin, a function with two helpers of which the second one
fails, one that fails and leaves a helper, a resource, and one function each that fails to be staged
and to be converted. -/
def everyFate : Table := .ofList [
  .function ⟨[.static], ⟨["main"], "pruned"⟩, .var (Staged.Pattern.plain .int) ⟨"x", 0⟩, .int,
    .var .int ⟨"x", 0⟩⟩,
  .alias ⟨[], ⟨["main"], "synonym"⟩, .int⟩,
  Staged.preludeFunction "int_add" .int,
  .function ⟨[], ⟨["main"], "chooses"⟩, .var (Staged.Pattern.plain .bool) ⟨"b", 0⟩, .bool,
    .ofCond (.var .bool ⟨"b", 0⟩) (.var .bool ⟨"b", 0⟩)
      (.ofLet (.wildcard (Staged.Pattern.plain (.ref .bool)))
        (.ref (.ref .bool) (.var .bool ⟨"b", 0⟩)) (.var .bool ⟨"b", 0⟩))⟩,
  .function boxMaker,
  .resource ⟨[], .predicates, ⟨["main"], "data"⟩, .ofLiteral (.int 1)⟩,
  .function ⟨[], ⟨["main"], "hole"⟩, .var (Staged.Pattern.plain .int) ⟨"x", 0⟩, .int, .hole .int⟩,
  .function ⟨[], ⟨["main"], "unresolved"⟩, .var (Staged.Pattern.plain .int) ⟨"x", 0⟩, .int,
    .var .int ⟨"y", 1⟩⟩]

theorem accounts_for_everyFate : ∃ b,
    build? 10 ⟨"pack", false, 64⟩ .prelude everyFate = some b ∧
    (∀ d ∈ everyFate.definitions,
      ':' ∉ d.name.name.toList ∧ d.name.IsLocatable ∧ d.name ≠ Flat.dispatcher) ∧
    b.artifacts.map (·.location.path) =
      ["main/chooses", "main/chooses.1m0", "main/f.1m0", "main/data", "mcx/dispatch"] ∧
    b.failures.map (·.1.name) = ["hole", "unresolved", "chooses:1", "f"] ∧
    ∃ staged lifted, b.Accounts ⟨everyFate, .prelude, 64⟩ 10 ⟨"pack", false⟩ everyFate.definitions
      staged lifted := by
  have hsome : (build? 10 ⟨"pack", false, 64⟩ .prelude everyFate).isSome := by decide +kernel
  obtain ⟨b, hb⟩ := Option.isSome_iff_exists.1 hsome
  have hout : (build? 10 ⟨"pack", false, 64⟩ .prelude everyFate).all fun b => decide
      (b.artifacts.map (·.location.path) =
        ["main/chooses", "main/chooses.1m0", "main/f.1m0", "main/data", "mcx/dispatch"] ∧
      b.failures.map (·.1.name) = ["hole", "unresolved", "chooses:1", "f"]) := by decide +kernel
  rw [hb, Option.all_some, decide_eq_true_eq] at hout
  have hnames : ∀ d ∈ everyFate.definitions,
      ':' ∉ d.name.name.toList ∧ d.name.IsLocatable ∧ d.name ≠ Flat.dispatcher := by
    have hdecided : ∀ d ∈ everyFate.definitions, ':' ∉ d.name.name.toList ∧
        (∀ c ∈ d.name.path, '/' ∉ c.toList) ∧
        (∀ c ∈ Text.bytesOf d.name.name, Text.isSelfDelimiting c = true) ∧
        d.name ≠ Flat.dispatcher := by decide +kernel
    intro d hd
    obtain ⟨hcolon, hpath, hname, hdispatcher⟩ := hdecided d hd
    exact ⟨hcolon, ⟨hpath, hname⟩, hdispatcher⟩
  exact ⟨b, hb, hnames, hout.1, hout.2, accounts_for_definitions hb hnames⟩

end Stagecraft.Pipeline
