import Stagecraft.Proofs.Implementation
import Stagecraft.Proofs.ReadBackAgreement
import Stagecraft.Proofs.RunTimePrograms

/-!
# Compile time and run time agree

A table that a type checker accepts is converted, and a machine has the code. Then the machine never
stops but for a lack of fuel, and where the evaluator normalizes a call to data, the machine leaves
the slots of that data (`reaches_normalized`). The proof goes through the call-by-value semantics of
the converted program: the machine leaves what that gives (`Emit.call_runs`), and so does the
evaluator (`Eval.normalizeAt_agrees`). For a table in which nothing is left for staging all of this
is what a build does (`reaches_of_build`).
-/

namespace Stagecraft

open Eval (ofData? ofDataAll? ofDataFields? normalize)
open Flat (ClosureTable Program Ty Value Inhabits Takes dispatcher)
open Pipeline (flatten)
open Staged (Table)
open Target (Artifact Location)

/-! ## Data -/

namespace Flat

theorem keys_of_ofDataFields? {fields : List (String × Staged.Term)} {ws : List (String × Value)}
    (h : ofDataFields? fields = some ws) : ws.map (·.1) = Keyed.keys fields := by
  induction fields generalizing ws with
  | nil =>
    cases h
    rfl
  | cons f fields ih =>
    obtain ⟨key, t⟩ := f
    simp only [ofDataFields?, Option.bind_eq_bind, Option.bind_eq_some_iff, Option.pure_def,
      Option.some.injEq] at h
    obtain ⟨w, -, more, hmore, rfl⟩ := h
    exact congrArg (key :: ·) (ih hmore)

section

variable {table : Table} {P : Program} {takes : DefName → Ty → Ty → Prop}

mutual

/-- Data that checks is a value of its type. -/
theorem inhabits_of_ofData? : ∀ {t : Staged.Term} {w : Value} {τ : Ty} {Γ : Staged.Context},
    ofData? t = some w → t.Checks table Γ → Ty.ofStaged table t.ty = .ok τ →
      Inhabits P takes w τ
  | .literal _ l, w, τ, Γ, hw, h, hτ => by
    cases hw
    obtain rfl := eq_of_agrees h hτ (ofStaged_scalar_eq table _)
    exact .literal
  | .array _ kind es, w, τ, Γ, hw, ⟨ht, htys, h⟩, hτ => by
    obtain ⟨ws, hws, rfl⟩ := Option.map_eq_some_iff.1 hw
    obtain rfl := eq_of_agrees ht hτ (ofStaged_array_eq table _)
    exact .array (inhabits_of_mem_ofDataAll? (l := es) hws h htys (ofStaged_scalar_eq table _))
  | .list _ es, w, τ, Γ, hw, ⟨⟨u, hu, htys⟩, h⟩, hτ => by
    obtain ⟨ws, hws, rfl⟩ := Option.map_eq_some_iff.1 hw
    obtain ⟨σ, rfl, hσ⟩ := exists_of_ofStaged_list (hu ▸ hτ)
    exact .list (inhabits_of_mem_ofDataAll? (l := es) hws h htys hσ)
  | .compound _ fields, w, τ, Γ, hw, ⟨ht, hnodup, h⟩, hτ => by
    obtain ⟨ws, hws, rfl⟩ := Option.map_eq_some_iff.1 hw
    obtain ⟨τs, rfl, htys⟩ := exists_of_ofStaged_compound (ht ▸ hτ)
    exact .compound (keys_of_ofDataFields? hws ▸ hnodup)
      (fieldsInhabit_of_ofDataFields? (l := fields) hws h htys)
  | .tuple _ es, w, τ, Γ, hw, ⟨ht, h⟩, hτ => by
    obtain ⟨ws, hws, rfl⟩ := Option.map_eq_some_iff.1 hw
    obtain ⟨τs, rfl, htys⟩ := ofStaged_tuple (ht ▸ hτ)
    exact .tuple (allInhabit_of_ofDataAll? (l := es) hws h htys)
  | .lambda .., _, _, _, hw, _, _ | .apply .., _, _, _, hw, _, _ | .cond .., _, _, _, hw, _, _
  | .letIn .., _, _, _, hw, _, _ | .var .., _, _, _, hw, _, _ | .call .., _, _, _, hw, _, _
  | .test .., _, _, _, hw, _, _ | .command .., _, _, _, hw, _, _ | .quote .., _, _, _, hw, _, _
  | .splice .., _, _, _, hw, _, _ | .hole .., _, _, _, hw, _, _ => nomatch hw

/-- As `inhabits_of_ofData?`, for several terms. -/
theorem allInhabit_of_ofDataAll? : ∀ {l : List Staged.Term} {ws : List Value} {τs : List Ty}
    {Γ : Staged.Context}, ofDataAll? l = some ws → Staged.Term.AllCheck table Γ l →
      List.Forall₂ (fun t τ => Ty.ofStaged table t = .ok τ) (l.map (·.ty)) τs →
      AllInhabit P takes ws τs
  | [], ws, τs, _, hws, _, hτs => by
    cases hws
    cases hτs
    exact .nil
  | t :: ts, ws, τs, _, hws, h, hτs => by
    simp only [ofDataAll?, Option.bind_eq_bind, Option.bind_eq_some_iff, Option.pure_def,
      Option.some.injEq] at hws
    obtain ⟨w, hw, more, hmore, rfl⟩ := hws
    cases hτs with
    | cons hτ hτs =>
      exact .cons (inhabits_of_ofData? (t := t) hw h.1 hτ)
        (allInhabit_of_ofDataAll? (l := ts) hmore h.2 hτs)

/-- As `inhabits_of_ofData?`, for several terms of one type. -/
theorem inhabits_of_mem_ofDataAll? : ∀ {l : List Staged.Term} {ws : List Value} {u : Staged.Ty}
    {σ : Ty} {Γ : Staged.Context}, ofDataAll? l = some ws → Staged.Term.AllCheck table Γ l →
      (∀ t ∈ l, t.ty.Agrees table u) → Ty.ofStaged table u = .ok σ →
      ∀ w ∈ ws, Inhabits P takes w σ
  | [], ws, _, _, _, hws, _, _, _ => by
    cases hws
    exact fun _ hw => nomatch hw
  | t :: ts, ws, _, _, _, hws, h, hagree, hσ => by
    simp only [ofDataAll?, Option.bind_eq_bind, Option.bind_eq_some_iff, Option.pure_def,
      Option.some.injEq] at hws
    obtain ⟨w, hw, more, hmore, rfl⟩ := hws
    have ht := (hagree t List.mem_cons_self).trans hσ
    exact List.forall_mem_cons.2 ⟨inhabits_of_ofData? (t := t) hw h.1 ht,
      inhabits_of_mem_ofDataAll? (l := ts) hmore h.2
        (fun t ht => hagree t (List.mem_cons_of_mem _ ht)) hσ⟩

/-- As `inhabits_of_ofData?`, for the fields of a record. -/
theorem fieldsInhabit_of_ofDataFields? : ∀ {l : List (String × Staged.Term)}
    {ws : List (String × Value)} {τs : List (String × Ty)} {Γ : Staged.Context},
    ofDataFields? l = some ws → Staged.Term.FieldsCheck table Γ l →
      List.Forall₂ (fun t τ => t.1 = τ.1 ∧ Ty.ofStaged table t.2 = .ok τ.2)
        (l.map fun f => (f.1, f.2.ty)) τs → FieldsInhabit P takes ws τs
  | [], ws, τs, _, hws, _, hτs => by
    cases hws
    cases hτs
    exact .nil
  | (key, t) :: rest, ws, τs, _, hws, h, hτs => by
    simp only [ofDataFields?, Option.bind_eq_bind, Option.bind_eq_some_iff, Option.pure_def,
      Option.some.injEq] at hws
    obtain ⟨w, hw, more, hmore, rfl⟩ := hws
    obtain ⟨⟨_, τ⟩, τs, ⟨rfl, hτ⟩, hrest, rfl⟩ := List.forall₂_cons_left_iff.1 hτs
    exact .cons (inhabits_of_ofData? (t := t) hw h.1 hτ)
      (fieldsInhabit_of_ofDataFields? (l := rest) hmore h.2 hrest)

end

end

end Flat

/-! ## Agreement -/

/-- **Compile time and run time agree.** Let every definition of a table check and be converted, to
definitions of distinct names, and let a machine have the code. Call a function on the slots of data
of its parameter type. Whatever the fuel, the machine runs out of it or ends without a failure; and
if the evaluator normalizes the call to data, the machine ends with the slots of that data in place
of those of the argument. -/
theorem reaches_normalized {table : Table} {natives : Eval.Natives} {limit fuel : Nat}
    {flat : List Flat.Definition} {closures : ClosureTable}
    (hflat : flatten table .empty table.definitions = (flat, closures, []))
    (hnames : (flat.map Flat.Definition.name).Nodup) (hdispatcher : table.find? dispatcher = none)
    (hscoped : table.isScoped = true) (hplain : table.isPlain = true) (hchecks : table.Checks)
    {options : Emit.Options} {p : Machine.Program}
    (hcode : Emit.Implements p options ⟨flat, closures, natives⟩)
    {f : Staged.Function} (hf : .function f ∈ table.definitions) {a v : Staged.Term}
    {da dv : Value} (ha : ofData? a = some da) (hcheck : a.Checks table [])
    (hparam : a.ty.Agrees table f.binder.ty)
    (hv : normalize ⟨table, natives, limit⟩ fuel (.call f.result f.name a) = .ok v)
    (hdv : ofData? v = some dv) (s : Machine.State) (n : Nat) :
    (Machine.call p n (.ofName options.nspace f.name)
      (Emit.pushCells s (Emit.cells da))).Reaches fun s' =>
        ∃ t, s' = Emit.pushCells t (Emit.cells dv) ∧ t.stack = s.stack := by
  have hconverted := Flat.converted_of_flatten hflat hnames natives
  have hagree : Eval.Agreement ⟨table, natives, limit⟩ table ⟨flat, closures, natives⟩ := {
    definitions := rfl
    natives := rfl
    converted := hconverted
    allScoped := hscoped
    noDispatcher := hdispatcher }
  obtain ⟨σ, τ, htakes, hσ⟩ := hconverted.exists_takes hf
  have hda : Inhabits ⟨flat, closures, natives⟩ (Takes table) da σ :=
    Flat.inhabits_of_ofData? ha hcheck (hparam.trans hσ)
  have hfree : table.function? dispatcher = none := by rw [Table.function?, hdispatcher]
  refine (Emit.call_runs (Flat.wellTyped_of_converted hfree hconverted hchecks) hcode htakes
    hda s n).mono ?_
  rintro _ ⟨r, t, hr, -, rfl, ht⟩
  -- the evaluator and the converted program agree on the result
  have heq : dv = r := by
    refine Eval.normalizeAt_agrees hagree hplain (fun Ω => ?_)
      (Staged.Table.isPlain_function hplain hf) hv hdv
    cases fuel with
    | zero => exact Eval.Yields.outOfFuel
    | succ fuel =>
      have heval := Eval.evaluate_agrees hagree fuel
      exact Eval.call_agrees hagree heval heval.force (.data ha) hr
  exact ⟨t, by rw [heq], ht⟩

/-- **A clean build runs as its table evaluates.** Let a table check, with nothing to stage in it,
no colon in its names and no other builtins than those of the prelude. Let its build be clean, at
locations that are distinct from each other and from those of the native functions, in sizes that
32-bit indices can count. Call a function on the slots of data of its parameter type. Whatever the
fuel, the machine that runs the build runs out of it or ends without a failure; and if the evaluator
normalizes the call to data, the machine ends with the slots of that data in place of those of the
argument. -/
theorem reaches_of_build {table : Table} (hruntime : table.isRunTime = true)
    (hbuiltins : table.HasPreludeBuiltins) (hdispatcher : table.find? dispatcher = none)
    (hcolon : ∀ d ∈ table.definitions, ':' ∉ d.name.name.toList) (hscoped : table.isScoped = true)
    (hplain : table.isPlain = true) (hchecks : table.Checks) {staging : Nat}
    {settings : Pipeline.Settings} {b : Pipeline.Build}
    (hb : Pipeline.build? staging settings .prelude table = some b) (hclean : b.isClean = true)
    (hlocations : (b.artifacts.map Artifact.location ++ Machine.Native.all.map fun e =>
      Location.ofName settings.nspace (Staged.preludeName e.1)).Nodup)
    (hweights : Flat.areAddressable (flatten table .empty table.definitions).1)
    (htags : b.closures.size ≤ 2 ^ 32) {f : Staged.Function}
    (hf : .function f ∈ table.definitions) {a v : Staged.Term} {da dv : Value}
    (ha : ofData? a = some da) (hcheck : a.Checks table [])
    (hparam : a.ty.Agrees table f.binder.ty) {limit fuel : Nat}
    (hv : normalize ⟨table, .prelude, limit⟩ fuel (.call f.result f.name a) = .ok v)
    (hdv : ofData? v = some dv) (s : Machine.State) (n : Nat) :
    (Machine.call ((Machine.Program.empty.addArtifacts b.artifacts).withPrelude settings.nspace) n
      (.ofName settings.nspace f.name) (Emit.pushCells s (Emit.cells da))).Reaches fun s' =>
        ∃ t, s' = Emit.pushCells t (Emit.cells dv) ∧ t.stack = s.stack := by
  rw [Pipeline.build?_of_isRunTime staging settings .prelude hruntime] at hb
  cases hb
  obtain ⟨hconversion, hemission⟩ := List.append_eq_nil_iff.1 (List.isEmpty_iff.1 hclean)
  have hflat : flatten table .empty table.definitions = ((flatten table .empty table.definitions).1,
      (flatten table .empty table.definitions).2.1, []) := by
    rw [← hconversion]
  obtain ⟨hdistinct, -, happart⟩ := List.nodup_append.1 hlocations
  have hcode := Emit.implements_machineOf hflat hbuiltins hemission hdistinct (fun e he hmem => by
    rw [List.map_append] at happart
    exact happart _ (List.mem_append_left _ hmem) _ (List.mem_map_of_mem he) rfl) hweights htags
  exact reaches_normalized hflat (Pipeline.nodup_flatten table table.nodup hcolon) hdispatcher
    hscoped hplain hchecks hcode hf ha hcheck hparam hv hdv s n

/-- A function that adds up the numbers to its argument by calling itself. The last step of each
call is that of a local function, which captures the argument. -/
def sumTo : Staged.Function where
  marks := []
  name := ⟨["main"], "sum_to"⟩
  binder := .var (Staged.Pattern.plain .int) ⟨"n", 0⟩
  result := .int
  body := .ofCond (.call .bool (Staged.preludeName "int_lt")
      (.ofTuple [.var .int ⟨"n", 0⟩, .ofLiteral (.int 1)]))
    (.ofLiteral (.int 0))
    (.ofApply (.ofLambda (.var (Staged.Pattern.plain .int) ⟨"m", 1⟩)
        (.call .int (Staged.preludeName "int_add")
          (.ofTuple [.var .int ⟨"m", 1⟩, .var .int ⟨"n", 0⟩])))
      (.call .int ⟨["main"], "sum_to"⟩ (.call .int (Staged.preludeName "int_sub")
        (.ofTuple [.var .int ⟨"n", 0⟩, .ofLiteral (.int 1)]))))

/-- The prelude and `sumTo`. -/
def sums : Table := .ofList (Staged.prelude ++ [.function sumTo])

theorem checks_sums : sums.Checks := by
  have hdefinitions : sums.definitions = Staged.prelude ++ [.function sumTo] := rfl
  intro f hf
  rw [hdefinitions] at hf
  rcases List.mem_append.1 hf with hf | hf
  · simp only [Staged.prelude, Staged.preludeFunction, List.mem_cons,
      Staged.Definition.function.injEq, List.not_mem_nil, or_false] at hf
    rcases hf with rfl | rfl | rfl | rfl | rfl <;>
      exact ⟨by decide, by decide, trivial, trivial, rfl⟩
  · rw [List.mem_singleton] at hf
    cases hf
    have hvar : ∀ {Γ : Staged.Context} {name : String} {level : Nat},
        Keyed.find? name Γ = some .int → (Staged.Term.var .int ⟨name, level⟩).Checks sums Γ := by
      intro Γ name level h u hu
      obtain rfl := Option.some.inj (h.symm.trans hu)
      rfl
    have hlast : ∀ Γ, (Staged.Term.ofLiteral (.int 1)).Checks sums Γ := fun Γ => rfl
    refine ⟨by decide, by decide, trivial, ⟨rfl, rfl, rfl, ?_, rfl, ?_⟩, rfl⟩
    · exact ⟨_, rfl, rfl, rfl, rfl, hvar rfl, hlast _, trivial⟩
    · refine ⟨rfl, ⟨rfl, trivial, by decide +kernel, ?_⟩, ?_⟩
      · exact ⟨_, rfl, rfl, rfl, rfl, hvar rfl, hvar rfl, trivial⟩
      · exact ⟨_, rfl, rfl, rfl, _, rfl, rfl, rfl, rfl, hvar rfl, hlast _, trivial⟩

theorem hasPreludeBuiltins_sums : sums.HasPreludeBuiltins := by
  have hdefinitions : sums.definitions = Staged.prelude ++ [.function sumTo] := rfl
  intro f hf hb
  rw [hdefinitions, List.mem_append, List.mem_singleton] at hf
  rcases hf with hf | hf
  · exact hf
  · cases hf
    exact absurd hb (by decide)

/-- The build of `sums`. -/
def sumsBuild : Pipeline.Build :=
  (Pipeline.build? 0 .standard .prelude sums).getD default

/-- The sum of the numbers to 2, at compile time and at run time. -/
theorem reaches_sums :
    sums.isRunTime = true ∧ sums.find? dispatcher = none ∧ sums.isScoped = true ∧
    sums.isPlain = true ∧ Pipeline.build? 0 .standard .prelude sums = some sumsBuild ∧
    sumsBuild.isClean = true ∧
    normalize ⟨sums, .prelude, 64⟩ 100 (.call .int ⟨["main"], "sum_to"⟩ (.ofLiteral (.int 2))) =
      .ok (.ofLiteral (.int 3)) ∧
    (Machine.call ((Machine.Program.empty.addArtifacts sumsBuild.artifacts).withPrelude "minecraft")
      1000 ⟨"minecraft", "main/sum_to"⟩ (Machine.State.empty.push .int (.int 2))).error = none ∧
    (Machine.call ((Machine.Program.empty.addArtifacts sumsBuild.artifacts).withPrelude "minecraft")
      1000 ⟨"minecraft", "main/sum_to"⟩ (Machine.State.empty.push .int (.int 2))).Reaches fun s' =>
        ∃ t : Machine.State, s' = t.push .int (.int 3) ∧ t.stack = Machine.State.empty.stack := by
  have hruntime : sums.isRunTime = true := by decide +kernel
  have hdispatcher : sums.find? dispatcher = none := by cbv
  have hscoped : sums.isScoped = true := by decide +kernel
  have hplain : sums.isPlain = true := by decide +kernel
  have hb : Pipeline.build? 0 .standard .prelude sums = some sumsBuild := by
    rw [sumsBuild, Pipeline.build?_of_isRunTime 0 .standard .prelude hruntime]
    rfl
  have hclean : sumsBuild.isClean = true := by decide +kernel
  have hv : normalize ⟨sums, .prelude, 64⟩ 100
      (.call .int ⟨["main"], "sum_to"⟩ (.ofLiteral (.int 2))) = .ok (.ofLiteral (.int 3)) := by cbv
  refine ⟨hruntime, hdispatcher, hscoped, hplain, hb, hclean, hv, by decide +kernel, ?_⟩
  exact reaches_of_build (f := sumTo) (a := .ofLiteral (.int 2)) hruntime hasPreludeBuiltins_sums
    hdispatcher (by decide +kernel) hscoped hplain checks_sums hb hclean (by decide +kernel)
    (by decide +kernel) (by decide +kernel) (List.mem_of_getElem? (i := 5) rfl) rfl rfl rfl hv rfl
    .empty 1000

end Stagecraft
