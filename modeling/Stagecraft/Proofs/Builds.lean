import Stagecraft.Machine.Run
import Stagecraft.Proofs.ClosureTags

/-!
# What a build emits

A build turns every definition into flat ones and those into artifacts. Here is what the theorems on
whole builds take from it: which flat definitions there are (`exists_of_build?`), that every entry
of the table of closure bodies has its function among them (`exists_body`), and that a machine finds
the code of a function at its location (`find?_addArtifacts`). A helper never stands where a native
function of the prelude does (`find?_helper`): the colon in its name becomes a dot in its location.
-/

/-! ## Where functions stand -/

namespace Stagecraft.Flat

open Target (Location)

theorem dot_mem_escaped {s : String} (h : ':' ∈ s.toList) : '.' ∈ (Text.escaped s).toList := by
  have hbyte : (58 : UInt8) ∈ Text.bytesOf s := List.mem_flatMap.2 ⟨':', h, by decide⟩
  rw [Text.escaped, String.toList_ofList]
  exact List.mem_flatMap.2 ⟨58, hbyte, by decide⟩

/-- The colon in the name of a helper is a dot in its location. -/
theorem dot_mem_path (nspace : String) (name : DefName) (i : Nat) :
    '.' ∈ (Location.ofName nspace (helperName name i)).path.toList := by
  have hcolon : ':' ∈ (helperName name i).name.toList := by simp [helperName, DefName.sibling]
  have hlast := dot_mem_escaped hcolon
  rw [Location.ofName]
  cases hpath : (helperName name i).path with
  | nil => simpa using hlast
  | cons x path =>
    rw [String.intercalate_append_of_ne_nil (List.cons_ne_nil x path) (List.cons_ne_nil _ []),
      String.intercalate_singleton, String.toList_append]
    exact List.mem_append_right _ hlast

end Stagecraft.Flat

namespace Stagecraft.Machine

open Target (Location Instruction Artifact)

/-- Artifacts elsewhere do not change what is at a location. -/
theorem functions_addArtifacts {artifacts : List Artifact} {l : Location}
    (h : l ∉ artifacts.map Artifact.location) (p : Program) :
    Keyed.find? l (p.addArtifacts artifacts).functions = Keyed.find? l p.functions := by
  induction artifacts generalizing p with
  | nil => rfl
  | cons a artifacts ih =>
    rw [List.map_cons, List.mem_cons, not_or] at h
    have hstep := ih h.2
    cases a with
    | resource => exact hstep p
    | function l' body =>
      have hne : l' ≠ l := Ne.symm h.1
      refine (hstep (p.add l' body)).trans ?_
      rw [Program.add, Keyed.find?_insert, if_neg hne]

/-- Among artifacts at locations of their own each function is found at its location. -/
theorem find?_addArtifacts {artifacts : List Artifact}
    (hnodup : (artifacts.map Artifact.location).Nodup) {l : Location} {is : List Instruction}
    (h : .function l is ∈ artifacts) (p : Program) :
    Keyed.find? l (p.addArtifacts artifacts).functions = some is := by
  induction artifacts generalizing p with
  | nil => cases h
  | cons a artifacts ih =>
    rw [List.map_cons, List.nodup_cons] at hnodup
    rcases List.mem_cons.1 h with rfl | hrest
    · have hmiss : l ∉ artifacts.map Artifact.location := hnodup.1
      refine (functions_addArtifacts hmiss (p.add l is)).trans ?_
      rw [Program.add, Keyed.find?_insert, if_pos rfl]
    · cases a with
      | resource => exact ih hnodup.2 hrest p
      | function l' body => exact ih hnodup.2 hrest (p.add l' body)

/-- The native functions stand at names of the prelude, in any namespace. -/
def Program.HasPreludeNatives (p : Program) : Prop :=
  ∀ l native, Keyed.find? l p.natives = some native → ∃ e ∈ Native.all, l.path = "prelude/" ++ e.1

theorem hasPreludeNatives_empty : Program.empty.HasPreludeNatives := fun _ _ h => nomatch h

theorem Program.HasPreludeNatives.addArtifacts {p : Program} (h : p.HasPreludeNatives)
    (artifacts : List Artifact) : (p.addArtifacts artifacts).HasPreludeNatives := by
  induction artifacts generalizing p with
  | nil => exact h
  | cons a artifacts ih =>
    cases a with
    | resource => exact ih h
    | function l body => exact ih (p := p.add l body) h

theorem Program.HasPreludeNatives.withPrelude {p : Program} (h : p.HasPreludeNatives)
    (nspace : String) : (p.withPrelude nspace).HasPreludeNatives := by
  have hinsert : ∀ es ⊆ Native.all, ∀ q : Program, q.HasPreludeNatives →
      Program.HasPreludeNatives ⟨q.functions, es.foldl (fun natives e =>
        Keyed.insert ⟨nspace, "prelude/" ++ e.1⟩ e.2.run natives) q.natives⟩ := by
    intro es hes
    induction es with
    | nil => exact fun q hq => hq
    | cons e es ih =>
      intro q hq
      rw [List.cons_subset] at hes
      refine ih hes.2 ⟨q.functions, Keyed.insert ⟨nspace, "prelude/" ++ e.1⟩ e.2.run q.natives⟩
        fun l native hl => ?_
      rw [Keyed.find?_insert] at hl
      split at hl
      · next heq => exact ⟨e, hes.1, heq ▸ rfl⟩
      · exact hq l native hl
  exact hinsert Native.all (List.Subset.refl _) p h

/-- No native function stands where a helper does. -/
theorem Program.HasPreludeNatives.find?_helper {p : Program} (h : p.HasPreludeNatives)
    (nspace : String) (name : DefName) (i : Nat) :
    Keyed.find? (.ofName nspace (Flat.helperName name i)) p.natives = none := by
  refine Option.eq_none_iff_forall_ne_some.2 fun native hn => ?_
  obtain ⟨e, he, hpath⟩ := h _ _ hn
  have hdot := Flat.dot_mem_path nspace name i
  rw [hpath] at hdot
  have hfree : ∀ e ∈ Native.all, '.' ∉ ("prelude/" ++ e.1).toList := by decide +kernel
  exact hfree e he hdot

/-- No native function stands where the dispatcher does. -/
theorem Program.HasPreludeNatives.find?_dispatcher {p : Program} (h : p.HasPreludeNatives)
    (nspace : String) : Keyed.find? (.ofName nspace Flat.dispatcher) p.natives = none := by
  refine Option.eq_none_iff_forall_ne_some.2 fun native hn => ?_
  obtain ⟨e, he, hpath⟩ := h _ _ hn
  have hother : ∀ e ∈ Native.all,
      String.intercalate "/" (["mcx"] ++ [Text.escaped "dispatch"]) ≠ "prelude/" ++ e.1 := by
    decide +kernel
  exact hother e he hpath

end Stagecraft.Machine

namespace Stagecraft.Pipeline

open Staged (Table)
open Flat (ClosureTable helperName)
open Emit (Options)
open Machine (Program State)
open Target (Location Instruction Artifact DataPath)

/-! ## Builds -/

/-- What a build emits and which closure bodies it lists. -/
theorem exists_of_build? {fuel : Nat} {settings : Settings} {natives : Eval.Natives}
    {table : Table} {b : Build} (h : build? fuel settings natives table = some b) :
    ∃ residual : Table,
      b.closures = (flatten residual .empty residual.definitions).2.1 ∧
      b.artifacts =
        (artifacts settings.emitOptions (flatten residual .empty residual.definitions).1).1 ++
          [Emit.dispatcher settings.emitOptions b.closures] ∧
      (artifacts settings.emitOptions (flatten residual .empty residual.definitions).1).2 ⊆
        b.failures := by
  unfold build? at h
  obtain ⟨⟨staged, failures⟩, -, h⟩ := Option.bind_eq_some_iff.1 h
  cases h
  exact ⟨Table.ofList staged, rfl, rfl, List.subset_append_right _ _⟩

/-- Every closure body is a helper and restores its tag. -/
theorem exists_body (table : Table) (ds : List Staged.Definition) {tag : Nat} {name : DefName}
    (h : (flatten table .empty ds).2.1.bodies[tag]? = some name) :
    ∃ f, .function f ∈ (flatten table .empty ds).1 ∧ f.name = name ∧
      f.restore = some (Int32.ofNat tag) := by
  have hsession := Flat.Session.after_eq_flatten table ds
  rw [Prod.mk.injEq] at hsession
  rw [← hsession.2] at h
  obtain ⟨o, ho, f, hf, hname, hrestore⟩ :=
    (Flat.Session.invariant_after (ds.map (Flat.Call.mk table))).entry h
  exact ⟨f, hsession.1 ▸ List.mem_flatMap.2 ⟨o, ho, hf⟩, hname, hrestore⟩

/-- Closure bodies are named as helpers. -/
theorem exists_helperName (table : Table) (ds : List Staged.Definition) (closures : ClosureTable)
    (h : ∀ name ∈ closures.bodies, ∃ d i, name = helperName d i) :
    ∀ name ∈ (flatten table closures ds).2.1.bodies, ∃ d i, name = helperName d i := by
  induction ds generalizing closures with
  | nil => exact h
  | cons d ds ih =>
    rw [flatten]
    cases hd : Flat.convert table closures d with
    | error e => exact ih closures h
    | ok r =>
      obtain ⟨own, helpers, bodies, -, hclosures, hout⟩ := Flat.exists_isOutcome hd
      refine ih r.2 fun name hname => ?_
      rw [hclosures] at hname
      rcases List.mem_append.1 hname with hname | hname
      · exact h name hname
      · obtain ⟨i, hi⟩ := List.mem_iff_getElem?.1 hname
        obtain ⟨f, hf, rfl, -⟩ := hout.body hi
        exact ⟨d.name, Flat.exists_helperName_of_mem hout.names hf⟩

/-- Definitions of distinct names without colons are converted to definitions of distinct names. -/
theorem nodup_flatten (table : Table) {ds : List Staged.Definition}
    (hnames : (ds.map Staged.Definition.name).Nodup)
    (hcolon : ∀ d ∈ ds, ':' ∉ d.name.name.toList) :
    ((flatten table .empty ds).1.map Flat.Definition.name).Nodup := by
  have hsession := Flat.Session.after_eq_flatten table ds
  rw [Prod.mk.injEq] at hsession
  rw [← hsession.1]
  refine (Flat.Session.invariant_after (ds.map (Flat.Call.mk table))).nodup_emitted ?_ ?_
  · rwa [List.map_map]
  · intro c hc
    obtain ⟨d, hd, rfl⟩ := List.mem_map.1 hc
    exact hcolon d hd

/-- Every function is emitted, or its failure is reported. -/
theorem emitted_or_failed {options : Options} {flat : List Flat.Definition} {f : Flat.Function}
    (hf : .function f ∈ flat) :
    (∃ is, Emit.function options f = .ok is ∧
      .function (.ofName options.nspace f.name) is ∈ (artifacts options flat).1) ∨
    ∃ e, Emit.function options f = .error e ∧
      (f.name, .emission e) ∈ (artifacts options flat).2 := by
  induction flat with
  | nil => cases hf
  | cons d flat ih =>
    rw [artifacts]
    rcases List.mem_cons.1 hf with rfl | hf
    · cases his : Emit.function options f with
      | error e =>
        have hd : Emit.artifact? options (.function f) = .error e := by
          rw [Emit.artifact?, his]
          rfl
        rw [hd]
        exact .inr ⟨e, rfl, List.mem_cons_self⟩
      | ok is =>
        have hd : Emit.artifact? options (.function f) =
            .ok (some (.function (.ofName options.nspace f.name) is)) := by
          rw [Emit.artifact?, his]
          rfl
        rw [hd]
        exact .inl ⟨is, rfl, List.mem_cons_self⟩
    · cases hd : Emit.artifact? options d with
      | error e =>
        exact (ih hf).imp_right fun ⟨e, hfail, hmem⟩ => ⟨e, hfail, List.mem_cons_of_mem _ hmem⟩
      | ok a? =>
        cases a? with
        | none => exact ih hf
        | some a =>
          exact (ih hf).imp_left fun ⟨is, his, hmem⟩ => ⟨is, his, List.mem_cons_of_mem _ hmem⟩

/-- Where no artifact fails, every function is emitted. -/
theorem mem_artifacts {options : Options} {flat : List Flat.Definition}
    (hclean : (artifacts options flat).2 = []) {f : Flat.Function} (hf : .function f ∈ flat) :
    ∃ is, Emit.function options f = .ok is ∧
      .function (.ofName options.nspace f.name) is ∈ (artifacts options flat).1 := by
  refine (emitted_or_failed hf).resolve_right ?_
  rintro ⟨e, -, he⟩
  rw [hclean] at he
  cases he

/-- A machine has the functions of a build, and native functions for the prelude only. -/
structure Build.RunBy (b : Build) (p : Program) : Prop where
  functions : p.functions = (Program.empty.addArtifacts b.artifacts).functions
  natives : p.HasPreludeNatives

/-- The functions of a build together with the native functions of the prelude. -/
theorem runBy_withPrelude (b : Build) (nspace : String) :
    b.RunBy ((Program.empty.addArtifacts b.artifacts).withPrelude nspace) :=
  ⟨rfl, (Machine.hasPreludeNatives_empty.addArtifacts b.artifacts).withPrelude nspace⟩

end Stagecraft.Pipeline
