import Stagecraft.Proofs.CodeRuns
import Stagecraft.Proofs.SourceTyping

/-!
# The machine of a build

A machine with the functions of a clean build, the dispatcher and the native functions of the
prelude has the code of the program that was emitted (`Emit.implements_machineOf`). Of the source it
asks that its builtins are those of the prelude, and that no function is put where one of them is.
-/

namespace Stagecraft

open Flat (ClosureTable Program Ty dispatcher)
open Pipeline (flatten artifacts)
open Staged (Table)
open Target (Artifact Location)

/-! ## Machines -/

/-- What a program has under a name is a definition of that name. -/
theorem Flat.Program.mem_of_find? {P : Program} {name : DefName} {d : Flat.Definition}
    (h : P.find? name = some d) : d ∈ P.definitions ∧ d.name = name := by
  have hname := List.find?_some h
  exact ⟨List.mem_of_find?_eq_some h, of_decide_eq_true hname⟩

theorem Flat.Program.mem_of_function? {P : Program} {name : DefName} {f : Flat.Function}
    (h : P.function? name = some f) : .function f ∈ P.definitions ∧ f.name = name := by
  unfold Flat.Program.function? at h
  split at h
  · next hfind =>
    cases h
    exact Flat.Program.mem_of_find? hfind
  · cases h

namespace Emit

open Machine (State)

/-- A machine that has the functions among the artifacts of a program, at locations of their own
and apart from its native functions, has the code of the program, if it has native functions behind
the builtins. -/
theorem implements_of_artifacts {options : Options} {P : Program} {p : Machine.Program}
    (hclean : (artifacts options P.definitions).2 = [])
    (hlocations : (((artifacts options P.definitions).1 ++
      [dispatcher options P.closures]).map Artifact.location).Nodup)
    (hfunctions : p.functions = (Machine.Program.empty.addArtifacts
      ((artifacts options P.definitions).1 ++ [dispatcher options P.closures])).functions)
    (hnatives : p.HasPreludeNatives)
    (hfree : ∀ f, .function f ∈ P.definitions →
      Keyed.find? (.ofName options.nspace f.name) p.natives = none)
    (hbuiltins : ∀ b, .builtin b ∈ P.definitions → ∃ n : Machine.Native,
      Keyed.find? (.ofName options.nspace b.name) p.natives = some n.run ∧
      Keyed.find? b.name P.natives = some (evaluated n) ∧
      b.param = .tuple [.int, .int] ∧ b.result = .scalar (nativeScalar n))
    (hweights : Flat.areAddressable P.definitions) (htags : P.closures.size ≤ 2 ^ 32) :
    Implements p options P where
  function {name f} hf := by
    obtain ⟨hmem, rfl⟩ := Flat.Program.mem_of_function? hf
    have hweight := List.all_eq_true.1 hweights _ hmem
    obtain ⟨is, hcode, his⟩ := Pipeline.mem_artifacts hclean hmem
    refine ⟨of_decide_eq_true hweight, hfree f hmem, is, hcode, ?_⟩
    rw [hfunctions]
    exact Machine.find?_addArtifacts hlocations (List.mem_append_left _ his) _
  builtin {name b} hb := by
    obtain ⟨hmem, rfl⟩ := Flat.Program.mem_of_find? hb
    exact hbuiltins b hmem
  dispatcher := by
    refine ⟨hnatives.find?_dispatcher options.nspace, _, Pipeline.dispatcher_eq options _, ?_⟩
    rw [hfunctions]
    refine Machine.find?_addArtifacts hlocations (List.mem_append_right _ ?_) _
    rw [Pipeline.dispatcher_eq]
    exact List.mem_singleton_self _
  tags := htags

/-- What a machine has that runs the artifacts of flat definitions: their functions, the dispatcher
and the native functions of the prelude. -/
def machineOf (options : Options) (flat : List Flat.Definition) (closures : ClosureTable) :
    Machine.Program :=
  (Machine.Program.empty.addArtifacts
    ((artifacts options flat).1 ++ [dispatcher options closures])).withPrelude options.nspace

theorem ofName_prelude (nspace : String) {e : String × Machine.Native}
    (he : e ∈ Machine.Native.all) :
    Location.ofName nspace (Staged.preludeName e.1) = ⟨nspace, "prelude/" ++ e.1⟩ := by
  have hpath : ∀ e ∈ Machine.Native.all,
      String.intercalate "/" (["prelude"] ++ [Text.escaped e.1]) = "prelude/" ++ e.1 := by
    decide +kernel
  exact congrArg (Location.mk nspace) (hpath e he)

theorem find?_withPrelude {p : Machine.Program} (nspace : String) {e : String × Machine.Native}
    (he : e ∈ Machine.Native.all) :
    Keyed.find? (.ofName nspace (Staged.preludeName e.1)) (p.withPrelude nspace).natives =
      some e.2.run := by
  rw [ofName_prelude nspace he]
  simp only [Machine.Native.all, List.mem_cons, List.not_mem_nil, or_false] at he
  rcases he with rfl | rfl | rfl | rfl | rfl <;>
    simp [Machine.Program.withPrelude, Machine.Native.all, Keyed.find?_insert]

end Emit

/-! ## Builtins -/

namespace Staged

/-- Every builtin of a table is one of the prelude. -/
def Table.HasPreludeBuiltins (table : Table) : Prop :=
  ∀ f, .function f ∈ table.definitions → f.has .builtin = true → .function f ∈ prelude

/-- A function of the prelude takes two integers and is implemented at compile time and at run
time. -/
theorem exists_native_of_prelude {f : Function} (h : .function f ∈ prelude) :
    ∃ e ∈ Machine.Native.all, f.name = preludeName e.1 ∧ f.binder.ty = .tuple [.int, .int] ∧
      f.result = .scalar (Emit.nativeScalar e.2) ∧
      Keyed.find? f.name Eval.Natives.prelude = some (Emit.evaluated e.2) := by
  simp only [prelude, preludeFunction, List.mem_cons, Definition.function.injEq,
    List.not_mem_nil, or_false] at h
  rcases h with rfl | rfl | rfl | rfl | rfl
  · exact ⟨("int_add", .add), by simp [Machine.Native.all], rfl, rfl, rfl, by decide⟩
  · exact ⟨("int_sub", .sub), by simp [Machine.Native.all], rfl, rfl, rfl, by decide⟩
  · exact ⟨("int_mul", .mul), by simp [Machine.Native.all], rfl, rfl, rfl, by decide⟩
  · exact ⟨("int_eq", .eq), by simp [Machine.Native.all], rfl, rfl, rfl, by decide⟩
  · exact ⟨("int_lt", .lt), by simp [Machine.Native.all], rfl, rfl, rfl, by decide⟩

end Staged

namespace Flat

section

variable {table : Table}

theorem run_lift_ok {α : Type} {x : Except Error α} {p p' : Progress} {a : α}
    (h : (liftM x : ConvertM α).run p = .ok (a, p')) : x = .ok a := by
  cases x with
  | error e => cases h
  | ok a => cases h; rfl

/-- A builtin among what a conversion gives is the interface of the definition. -/
theorem exists_of_convert_builtin {before after : ClosureTable} {d : Staged.Definition}
    {own : List Definition} {b : Builtin} (h : convert table before d = .ok (own, after))
    (hb : .builtin b ∈ own) :
    ∃ f, d = .function f ∧ f.has .builtin = true ∧ BuiltinOf table f b := by
  unfold convert at h
  rw [Except.bind_ok] at h
  obtain ⟨⟨ds, progress⟩, hrun, h⟩ := h
  cases h
  have hds : .builtin b ∈ ds := by
    rcases List.mem_append.1 hb with hb | hb
    · exact hb
    · obtain ⟨f, -, heq⟩ := List.mem_map.1 hb
      cases heq
  unfold Definition.ofStaged at hrun
  rcases d with r | f | a
  · simp only [StateT.run_bind, Except.bind_ok] at hrun
    obtain ⟨_, -, _, -, hrun⟩ := hrun
    cases hrun
    rw [List.mem_singleton] at hds
    cases hds
  · rw [StateT.run_bind, Except.bind_ok] at hrun
    obtain ⟨⟨e, progress'⟩, he, hrun⟩ := hrun
    cases hrun
    rw [List.mem_singleton] at hds
    subst hds
    unfold Definition.ofStagedFunction at he
    rw [StateT.run_bind, Except.bind_ok] at he
    obtain ⟨_, -, he⟩ := he
    split at he
    · next hbuiltin =>
      simp only [StateT.run_bind, Except.bind_ok] at he
      obtain ⟨⟨param, _⟩, hparam, ⟨result, _⟩, hresult, he⟩ := he
      cases he
      exact ⟨f, rfl, hbuiltin, rfl, run_lift_ok hparam, run_lift_ok hresult⟩
    · simp only [StateT.run_bind, Except.bind_ok] at he
      obtain ⟨_, -, _, -, _, -, he⟩ := he
      cases he
  · cases hrun
    cases hds

/-- The builtins of a converted table are the interfaces of its own. -/
theorem exists_of_builtin_mem {b : Builtin} {ds : List Staged.Definition} {closures : ClosureTable}
    (h : .builtin b ∈ (flatten table closures ds).1) :
    ∃ f, .function f ∈ ds ∧ f.has .builtin = true ∧ BuiltinOf table f b := by
  obtain ⟨d, hd, _, _, _, hconvert, hown, -⟩ := Pipeline.exists_of_mem_flatten h
  obtain ⟨f, rfl, hof⟩ := exists_of_convert_builtin hconvert hown
  exact ⟨f, hd, hof⟩

end

end Flat

namespace Emit

/-- What the converter and the emitter give for a table whose builtins are those of the prelude is
implemented by the machine that runs it, if everything is emitted, at locations of its own, none of
them that of a native function, and in sizes that 32-bit indices can count. -/
theorem implements_machineOf {table : Table} {options : Options} {flat : List Flat.Definition}
    {closures : ClosureTable}
    (hflat : flatten table .empty table.definitions = (flat, closures, []))
    (hbuiltins : table.HasPreludeBuiltins) (hclean : (artifacts options flat).2 = [])
    (hlocations : (((artifacts options flat).1 ++ [dispatcher options closures]).map
      Artifact.location).Nodup)
    (hfree : ∀ e ∈ Machine.Native.all, Location.ofName options.nspace (Staged.preludeName e.1) ∉
      (artifacts options flat).1.map Artifact.location)
    (hweights : Flat.areAddressable flat) (htags : closures.size ≤ 2 ^ 32) :
    Implements (machineOf options flat closures) options ⟨flat, closures, .prelude⟩ := by
  have hnatives : (machineOf options flat closures).HasPreludeNatives :=
    (Machine.hasPreludeNatives_empty.addArtifacts _).withPrelude options.nspace
  refine implements_of_artifacts hclean hlocations rfl hnatives ?_ ?_ hweights htags
  · intro f hf
    refine Option.eq_none_iff_forall_ne_some.2 fun native hn => ?_
    obtain ⟨e, he, hpath⟩ := hnatives _ _ hn
    obtain ⟨is, -, his⟩ := Pipeline.mem_artifacts hclean hf
    refine hfree e he ?_
    rw [ofName_prelude options.nspace he, ← hpath]
    exact List.mem_map_of_mem his
  · intro b hb
    have hflat' : .builtin b ∈ (flatten table .empty table.definitions).1 := by rwa [hflat]
    obtain ⟨f, hf, hmark, hof⟩ := Flat.exists_of_builtin_mem hflat'
    obtain ⟨e, he, hname, hparam, hresult, hnative⟩ :=
      Staged.exists_native_of_prelude (hbuiltins f hf hmark)
    refine ⟨e.2, ?_, hof.name ▸ hnative, ?_, ?_⟩
    · rw [hof.name, hname]
      exact find?_withPrelude options.nspace he
    · obtain ⟨ofAlias, heq⟩ := Flat.exists_tyWith table
      have hpair : Ty.ofStaged table (.tuple [.int, .int]) = .ok (.tuple [.int, .int]) := by
        rw [heq]
        rfl
      exact Except.ok.inj ((hparam ▸ hof.param).symm.trans hpair)
    · exact Except.ok.inj ((hresult ▸ hof.result).symm.trans (Flat.ofStaged_scalar_eq table _))

end Emit

end Stagecraft
