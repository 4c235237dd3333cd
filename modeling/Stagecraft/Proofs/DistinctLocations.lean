import Stagecraft.Proofs.CallTargets
import Stagecraft.Proofs.Implementation
import Stagecraft.Proofs.Locations

/-!
# Builds with distinct locations

A location is made from a name, so where locations are distinct names are, whatever characters they
are made of: a definition cannot have the name of a helper. This is what the distinct locations of a
clean build say of the flat definitions behind it (`nodup_names`), and of what their code can call
(`eq_of_location`).
-/

namespace Stagecraft.Flat

/-- Whether a definition has an artifact. -/
def Definition.isEmitted : Definition → Bool
  | .builtin _ => false
  | .function _ | .resource _ => true

end Stagecraft.Flat

namespace Stagecraft.Pipeline

open Staged (Table)
open Flat (ClosureTable)
open Target (Artifact Location)

section

variable {options : Emit.Options} {flat : List Flat.Definition}

/-- Where no artifact fails, those of the definitions that have one stand where these belong. -/
theorem locations_of_clean (hclean : (artifacts options flat).2 = []) :
    (artifacts options flat).1.map Artifact.location =
      (flat.filter (·.isEmitted)).map fun d => .ofName options.nspace d.name := by
  induction flat with
  | nil => rfl
  | cons d flat ih =>
    rw [artifacts] at hclean ⊢
    cases hd : Emit.artifact? options d with
    | error e =>
      rw [hd] at hclean
      cases hclean
    | ok a? =>
      rw [hd] at hclean
      cases a? with
      | none =>
        have hbuiltin : d.isEmitted = false := by
          rcases d with f | b | r
          · obtain ⟨_, -, h⟩ := Except.bind_ok.1 hd
            cases h
          · rfl
          · obtain ⟨_, -, h⟩ := Except.bind_ok.1 hd
            cases h
        rw [List.filter_cons_of_neg (by simp [hbuiltin])]
        exact ih hclean
      | some a =>
        have hemitted : d.isEmitted = true := by
          rcases d with f | b | r
          · rfl
          · cases hd
          · rfl
        rw [List.filter_cons_of_pos hemitted, List.map_cons, List.map_cons,
          location_of_artifact? hd, ih hclean]

/-- Where locations are distinct, emitted definitions of one location are the same. -/
theorem eq_of_location (hclean : (artifacts options flat).2 = [])
    (hlocations : ((artifacts options flat).1.map Artifact.location).Nodup) {d e : Flat.Definition}
    (hd : d ∈ flat) (he : e ∈ flat) (hdemitted : d.isEmitted = true)
    (heemitted : e.isEmitted = true)
    (h : Location.ofName options.nspace d.name = .ofName options.nspace e.name) : d = e := by
  rw [locations_of_clean hclean] at hlocations
  exact List.inj_on_of_nodup_map hlocations (List.mem_filter.2 ⟨hd, hdemitted⟩)
    (List.mem_filter.2 ⟨he, heemitted⟩) h

theorem location_mem (hclean : (artifacts options flat).2 = []) {d : Flat.Definition}
    (hd : d ∈ flat) (hemitted : d.isEmitted = true) :
    Location.ofName options.nspace d.name ∈ (artifacts options flat).1.map Artifact.location := by
  rw [locations_of_clean hclean]
  exact List.mem_map_of_mem (List.mem_filter.2 ⟨hd, hemitted⟩)

/-- Builtins have the names of definitions they were converted from. -/
theorem names_of_builtins (table : Table) (ds : List Staged.Definition) (closures : ClosureTable) :
    (((flatten table closures ds).1.filter fun d => !d.isEmitted).map Flat.Definition.name).Sublist
      (ds.map Staged.Definition.name) := by
  induction ds generalizing closures with
  | nil => exact List.Sublist.refl _
  | cons d ds ih =>
    rw [flatten]
    cases hd : Flat.convert table closures d with
    | error e => exact (ih closures).cons _
    | ok r =>
      obtain ⟨own, helpers, bodies, hflat, -, hout⟩ := Flat.exists_isOutcome hd
      have hhelpers : (helpers.map Flat.Definition.function).filter (fun d => !d.isEmitted) = [] :=
        List.filter_eq_nil_iff.2 fun e he => by
          obtain ⟨f, -, rfl⟩ := List.mem_map.1 he
          simp [Flat.Definition.isEmitted]
      have hown :
          ((own.filter fun d => !d.isEmitted).map Flat.Definition.name).Sublist [d.name] := by
        rcases Nat.le_one_iff_eq_zero_or_eq_one.1 hout.length_own with hnil | hone
        · obtain rfl := List.length_eq_zero_iff.1 hnil
          exact List.nil_sublist _
        · obtain ⟨e, rfl⟩ := List.length_eq_one_iff.1 hone
          have hname := hout.name_own e List.mem_cons_self
          exact hname ▸ (List.filter_sublist (l := [e])).map _
      change ((List.filter _ (r.1 ++ _)).map Flat.Definition.name).Sublist _
      rw [hflat, List.filter_append, List.filter_append, hhelpers, List.append_nil, List.map_append]
      exact hown.append (ih r.2)

/-- Where everything is emitted, at locations of its own and apart from those of builtins, the flat
definitions of a table have distinct names. -/
theorem nodup_names {table : Table} {closures : ClosureTable}
    (hflat : (flatten table closures table.definitions).1 = flat)
    (hclean : (artifacts options flat).2 = [])
    (hlocations : ((artifacts options flat).1.map Artifact.location).Nodup)
    (hbuiltins : ∀ b, .builtin b ∈ flat → Location.ofName options.nspace b.name ∉
      (artifacts options flat).1.map Artifact.location) :
    (flat.map Flat.Definition.name).Nodup := by
  have hperm := (List.filter_append_perm (·.isEmitted) flat).map Flat.Definition.name
  refine hperm.nodup_iff.1 ?_
  rw [List.map_append]
  refine List.nodup_append.2 ⟨?_, ?_, ?_⟩
  · rw [locations_of_clean hclean] at hlocations
    exact List.Nodup.of_map (Location.ofName options.nspace) (by rwa [List.map_map])
  · exact (hflat ▸ names_of_builtins table table.definitions closures).nodup table.nodup
  · rintro _ hd _ he rfl
    obtain ⟨d, hd, hname⟩ := List.mem_map.1 hd
    obtain ⟨e, he, hname'⟩ := List.mem_map.1 he
    obtain ⟨hd, hemitted⟩ := List.mem_filter.1 hd
    obtain ⟨he, hbuiltin⟩ := List.mem_filter.1 he
    rcases e with f | b | r
    · cases hbuiltin
    · refine hbuiltins b he ?_
      have hmem := location_mem hclean hd hemitted
      rwa [hname, ← hname'] at hmem
    · cases hbuiltin

end

/-! ## The machine of a build -/

/-- The flat program of staged definitions, with the functions of the prelude behind its
builtins. -/
def programOf (staged : List Staged.Definition) : Flat.Program :=
  let flat := flatten (.ofList staged) .empty staged
  ⟨flat.1, flat.2.1, .prelude⟩

/-- The machine that runs a build: it has the artifacts, and the native functions of the prelude. -/
def machine (nspace : String) (b : Build) : Machine.Program :=
  (Machine.Program.empty.addArtifacts b.artifacts).withPrelude nspace

/-- What a clean build at distinct locations is: all definitions of a table were converted to a
flat program and everything in that emitted, at locations of its own and apart from those of the
native functions. -/
structure IsBuildOf (settings : Settings) (table : Table) (P : Flat.Program) (b : Build) :
    Prop where
  converted : flatten table .empty table.definitions = (P.definitions, P.closures, [])
  natives : P.natives = .prelude
  closures_eq : b.closures = P.closures
  emitted : (artifacts settings.emitOptions P.definitions).2 = []
  artifacts_eq : b.artifacts =
    (artifacts settings.emitOptions P.definitions).1 ++
      [Emit.dispatcher settings.emitOptions b.closures]
  locations : (b.artifacts.map Artifact.location).Nodup
  free : ∀ e ∈ Machine.Native.all,
    Location.ofName settings.nspace (Staged.preludeName e.1) ∉ b.artifacts.map Artifact.location

theorem isBuildOf_of_build? {fuel : Nat} {settings : Settings} {natives : Eval.Natives}
    {table : Table} {b : Build} {staged : List Staged.Definition} {failures : Failures}
    (hstaged : residuals? ⟨table, natives, settings.unfoldLimit⟩ fuel table.definitions =
      some (staged, failures))
    (hbuild : build? fuel settings natives table = some b) (hclean : b.isClean = true)
    (hlocations : (b.artifacts.map Artifact.location ++ Machine.Native.all.map fun e =>
      Location.ofName settings.nspace (Staged.preludeName e.1)).Nodup) :
    IsBuildOf settings (.ofList staged) (programOf staged) b ∧
      (Table.ofList staged).definitions = staged := by
  obtain ⟨staged', failures', hstaged', -, hdefinitions, hclosures, hartifacts, hfailures⟩ :=
    phases_of_build? hbuild
  obtain ⟨rfl, rfl⟩ := Prod.mk.inj (Option.some.inj (hstaged'.symm.trans hstaged))
  rw [Build.isClean, List.isEmpty_iff, hfailures, List.append_eq_nil_iff,
    List.append_eq_nil_iff] at hclean
  obtain ⟨⟨-, hconverted⟩, hemitted⟩ := hclean
  obtain ⟨hdistinct, -, happart⟩ := List.nodup_append.1 hlocations
  refine ⟨⟨?_, rfl, hclosures, hemitted, hartifacts, hdistinct, fun e he hmem => ?_⟩, hdefinitions⟩
  · rw [hdefinitions, ← hconverted]
    rfl
  · exact happart _ hmem _ (List.mem_map_of_mem he) rfl

namespace IsBuildOf

variable {b : Build} {settings : Settings} {table : Table} {P : Flat.Program}
  (h : IsBuildOf settings table P b)

include h

theorem location_mem {d : Flat.Definition} (hd : d ∈ P.definitions)
    (hemitted : d.isEmitted = true) :
    Location.ofName settings.nspace d.name ∈ b.artifacts.map Artifact.location := by
  rw [h.artifacts_eq, List.map_append]
  exact List.mem_append_left _ (Pipeline.location_mem h.emitted hd hemitted)

theorem nodup_emitted :
    ((artifacts settings.emitOptions P.definitions).1.map Artifact.location).Nodup := by
  have hlocations := h.locations
  rw [h.artifacts_eq, List.map_append] at hlocations
  exact (List.nodup_append.1 hlocations).1

/-- No function is where the dispatcher is. -/
theorem ne_dispatcher {d : Flat.Definition} (hd : d ∈ P.definitions)
    (hemitted : d.isEmitted = true) :
    Location.ofName settings.nspace d.name ≠ .ofName settings.nspace Flat.dispatcher := by
  have hlocations := h.locations
  rw [h.artifacts_eq, List.map_append] at hlocations
  exact (List.nodup_append.1 hlocations).2.2 _ (Pipeline.location_mem h.emitted hd hemitted) _
    (List.mem_singleton_self _)

section

variable (hbuiltins : table.HasPreludeBuiltins)

include hbuiltins

/-- The flat definitions have distinct names. -/
theorem nodup_names : (P.definitions.map Flat.Definition.name).Nodup := by
  have hflat : (flatten table .empty table.definitions).1 = P.definitions := by rw [h.converted]
  refine Pipeline.nodup_names hflat h.emitted h.nodup_emitted fun b hb hmem => ?_
  obtain ⟨f, hf, hmark, hof⟩ := Flat.exists_of_builtin_mem (hflat ▸ hb)
  obtain ⟨e, he, hname, -⟩ := Staged.exists_native_of_prelude (hbuiltins f hf hmark)
  refine h.free e he ?_
  rw [h.artifacts_eq, List.map_append, ← hname, ← hof.name]
  exact List.mem_append_left _ hmem

/-- No function of the table has the name of the dispatcher. -/
theorem function?_dispatcher : table.function? Flat.dispatcher = none := by
  refine Option.eq_none_iff_forall_ne_some.2 fun f hf => ?_
  obtain ⟨hf, hname⟩ := Table.mem_of_function? hf
  cases hmark : f.has .builtin with
  | true =>
    have hother : ∀ e ∈ Machine.Native.all, Staged.preludeName e.1 ≠ Flat.dispatcher := by decide
    obtain ⟨e, he, hprelude, -⟩ := Staged.exists_native_of_prelude (hbuiltins f hf hmark)
    exact absurd (hprelude.symm.trans hname) (hother e he)
  | false =>
    have hclean : (flatten table .empty table.definitions).2.2 = [] := by rw [h.converted]
    obtain ⟨before, after, own, hconvert, hown⟩ := exists_convert hclean hf
    obtain ⟨g, hg, hg'⟩ := Flat.exists_function_of_convert hmark hconvert
    have hmem : .function g ∈ P.definitions := by
      rw [h.converted] at hown
      exact hown hg
    exact h.ne_dispatcher hmem rfl (congrArg _ (hg'.trans hname))

/-- What a function calls under another name than that of a function of the program is elsewhere
than that function. -/
theorem location_ne_of_callSite {f g : Flat.Function} (hf : .function f ∈ P.definitions)
    (hg : .function g ∈ P.definitions) {c : Emit.CallSite} (hc : c ∈ Emit.callSites f.body)
    (hne : c.name ≠ g.name) :
    Location.ofName settings.nspace c.name ≠ .ofName settings.nspace g.name := by
  intro heq
  have hflat : (flatten table .empty table.definitions).1 = P.definitions := by rw [h.converted]
  have hclean : (flatten table .empty table.definitions).2.2 = [] := by rw [h.converted]
  rcases callee_of_flatten rfl hclean (hflat.symm ▸ hf) c hc with
    hname | ⟨g', hg', hname⟩ | ⟨p, hp, hmark, hname⟩
  · exact h.ne_dispatcher hg rfl (heq.symm.trans (congrArg _ hname))
  · rw [hflat] at hg'
    have hsame := eq_of_location h.emitted h.nodup_emitted hg' hg rfl rfl
      ((congrArg _ hname).trans heq)
    cases hsame
    exact hne hname.symm
  · obtain ⟨e, he, hprelude, -⟩ := Staged.exists_native_of_prelude (hbuiltins p hp hmark)
    refine h.free e he ?_
    rw [← hprelude, hname, heq]
    exact h.location_mem hg rfl

/-- The machine that runs the build has the code of the flat program. -/
theorem implements (hweights : Flat.areAddressable P.definitions)
    (htags : b.closures.size ≤ 2 ^ 32) :
    Emit.Implements (machine settings.nspace b) settings.emitOptions P := by
  have hlocations := h.locations
  have hP : P = ⟨P.definitions, P.closures, .prelude⟩ := h.natives ▸ rfl
  rw [machine, hP, h.artifacts_eq, h.closures_eq]
  rw [h.artifacts_eq, h.closures_eq] at hlocations
  rw [h.closures_eq] at htags
  refine Emit.implements_machineOf h.converted hbuiltins h.emitted hlocations (fun e he hmem => ?_)
    hweights htags
  refine h.free e he ?_
  rw [h.artifacts_eq, List.map_append]
  exact List.mem_append_left _ hmem

end

end IsBuildOf

end Stagecraft.Pipeline
