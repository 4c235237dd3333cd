import Mathlib
import Stagecraft.Proofs.ReadBackAgreement
import Stagecraft.Proofs.FlatInterpreter
import Stagecraft.Staged.Inferred

/-!
# Closure conversion preserves meaning

Where the evaluator normalizes a call to data and the converted program gives a result for it, the
two are the same value. The program may recurse, capture variables under any nesting and shadow
names; the evaluator may stop unfolding at any limit.

Two names are not free for a program to use. The converter accepts every call to the dispatcher and
means its own by it, and it names helpers after the converted definition and a count: a program
that defines the dispatcher, or a name of a helper, changes what those calls run.
-/

namespace Stagecraft

open Eval (ofData? normalize Natives)
open Flat (ClosureTable Program Runs dispatcher)
open Pipeline (flatten)
open Staged (Table Pattern Term Ty)

/-- The program that a table is converted to. -/
def programOf (table : Table) (natives : Natives) : Program :=
  ⟨(flatten table .empty table.definitions).1, (flatten table .empty table.definitions).2.1,
    natives⟩


/-- A call normalizes to data only if the data is what the converted program gives on the
argument. -/
theorem normalize_call_eq_of_runs {table : Table} {natives : Natives} {limit fuel : Nat}
    {flat : List Flat.Definition} {closures : ClosureTable}
    (hflat : flatten table .empty table.definitions = (flat, closures, []))
    (hnames : (flat.map Flat.Definition.name).Nodup)
    (hdispatcher : table.find? dispatcher = none)
    (hscoped : table.isScoped = true) (hplain : table.isPlain = true)
    {f : Staged.Function} (hf : .function f ∈ table.definitions)
    {a v : Staged.Term} {da dv w : Flat.Value} (ha : ofData? a = some da)
    (hv : normalize ⟨table, natives, limit⟩ fuel (.call f.result f.name a) = .ok v)
    (hdv : ofData? v = some dv) (hw : Runs ⟨flat, closures, natives⟩ f.name da w) : dv = w := by
  have hagree : Eval.Agreement ⟨table, natives, limit⟩ table ⟨flat, closures, natives⟩ := {
    definitions := rfl
    natives := rfl
    converted := Flat.converted_of_flatten hflat hnames natives
    allScoped := hscoped
    noDispatcher := hdispatcher }
  refine Eval.normalizeAt_agrees hagree hplain (fun Ω => ?_)
    (Staged.Table.isPlain_function hplain hf) hv hdv
  cases fuel with
  | zero => exact Eval.Yields.outOfFuel
  | succ fuel =>
    have heval := Eval.evaluate_agrees hagree fuel
    exact Eval.call_agrees hagree heval heval.force (.data ha) hw

/-- A curried function whose inner function captures the argument of the definition twice over: the
conditional is in its body, and the clauses of the conditional are functions again. -/
def curried : Table := .ofList (Staged.prelude ++ [
  .function ⟨[], ⟨["main"], "f"⟩, .var (Pattern.plain .int) ⟨"x", 0⟩, .int,
    .ofApply (.ofApply (.ofLambda (.var (Pattern.plain .int) ⟨"y", 1⟩)
      (.ofCond (.call .bool (Staged.preludeName "int_lt")
          (.ofTuple [.var .int ⟨"y", 1⟩, .var .int ⟨"x", 0⟩]))
        (.ofLambda (.var (Pattern.plain .int) ⟨"x", 2⟩) (.call .int (Staged.preludeName "int_add")
          (.ofTuple [.var .int ⟨"y", 1⟩, .var .int ⟨"x", 2⟩])))
        (.ofLambda (.var (Pattern.plain .int) ⟨"z", 2⟩) (.var .int ⟨"x", 0⟩))))
      (.ofLiteral (.int 3))) (.ofLiteral (.int 4))⟩])

theorem normalize_curried_eq_of_runs :
    (flatten curried .empty curried.definitions).2.2 = [] ∧
    ((programOf curried .prelude).definitions.map Flat.Definition.name).Nodup ∧
    curried.find? dispatcher = none ∧ curried.isScoped = true ∧ curried.isPlain = true ∧
    normalize ⟨curried, .prelude, 64⟩ 100 (.call .int ⟨["main"], "f"⟩ (.ofLiteral (.int 5))) =
      .ok (.ofLiteral (.int 7)) ∧
    Runs (programOf curried .prelude) ⟨["main"], "f"⟩ (.literal (.int 5)) (.literal (.int 7)) ∧
    (Flat.Value.literal (.int 7)) = .literal (.int 7) := by
  have hfailures : (flatten curried .empty curried.definitions).2.2 = [] := by decide +kernel
  have hnames : ((programOf curried .prelude).definitions.map Flat.Definition.name).Nodup := by
    decide +kernel
  have hdispatcher : curried.find? dispatcher = none := by cbv
  have hscoped : curried.isScoped = true := by decide +kernel
  have hplain : curried.isPlain = true := by decide +kernel
  have hv : normalize ⟨curried, .prelude, 64⟩ 100
      (.call .int ⟨["main"], "f"⟩ (.ofLiteral (.int 5))) = .ok (.ofLiteral (.int 7)) := by cbv
  have hw : Runs (programOf curried .prelude) ⟨["main"], "f"⟩ (.literal (.int 5))
      (.literal (.int 7)) := Flat.runs_of_run? (show Flat.run? _ 10 _ _ = _ by cbv)
  refine ⟨hfailures, hnames, hdispatcher, hscoped, hplain, hv, hw, ?_⟩
  refine normalize_call_eq_of_runs (f := ⟨[], ⟨["main"], "f"⟩, _, .int, _⟩) ?_ hnames hdispatcher
    hscoped hplain (List.mem_of_getElem? (i := 5) rfl) rfl hv rfl hw
  rw [← hfailures]
  rfl

/-- A definition of the dispatcher that ignores its argument, and a call to it with a function: the
evaluator runs the definition, the converted program applies the function. -/
def dispatcherTaken : Table := .ofList [
  .function ⟨[], dispatcher, .tuple (Pattern.plain (.tuple [.int, .function .int .int]))
    [.var (Pattern.plain .int) ⟨"a", 0⟩, .var (Pattern.plain (.function .int .int)) ⟨"g", 1⟩],
    .int, .ofLiteral (.int 99)⟩,
  .function ⟨[], ⟨["main"], "f"⟩, .var (Pattern.plain .int) ⟨"x", 0⟩, .int,
    .call .int dispatcher (.ofTuple [.var .int ⟨"x", 0⟩,
      .ofLambda (.var (Pattern.plain .int) ⟨"y", 1⟩) (.var .int ⟨"y", 1⟩)])⟩]

/-- A conditional whose first clause becomes a helper of the name of the next definition, and a
call to that definition. -/
def helperTaken : Table := .ofList [
  .function ⟨[], ⟨["main"], "f"⟩, .var (Pattern.plain .bool) ⟨"b", 0⟩, .int,
    .ofCond (.var .bool ⟨"b", 0⟩) (.ofLiteral (.int 1)) (.ofLiteral (.int 2))⟩,
  .function ⟨[], ⟨["main"], "f:0"⟩, .tuple (Pattern.plain (.tuple [.bool]))
    [.var (Pattern.plain .bool) ⟨"b", 0⟩], .int, .ofLiteral (.int 7)⟩,
  .function ⟨[], ⟨["main"], "g"⟩, .var (Pattern.plain .bool) ⟨"b", 0⟩, .int,
    .call .int ⟨["main"], "f:0"⟩ (.ofTuple [.var .bool ⟨"b", 0⟩])⟩]

/-- A call normalizes to one integer while the converted program gives another. -/
def Disagrees (table : Table) (name : DefName) (argument : Literal) (evaluated run : Int32) :
    Prop :=
  table.isScoped = true ∧ table.isPlain = true ∧
  (flatten table .empty table.definitions).2.2 = [] ∧ (table.function? name).isSome = true ∧
  normalize ⟨table, .prelude, 64⟩ 100 (.call .int name (.ofLiteral argument)) =
    .ok (.ofLiteral (.int evaluated)) ∧
  Runs (programOf table .prelude) name (.literal argument) (.literal (.int run)) ∧ evaluated ≠ run

/-- Closure conversion changes the meaning of a call to a definition of the dispatcher, and of one
to a definition that has the name of a helper. -/
theorem disagrees_of_taken_name :
    Disagrees dispatcherTaken ⟨["main"], "f"⟩ (.int 5) 99 5 ∧
    Disagrees helperTaken ⟨["main"], "g"⟩ (.bool true) 7 1 := by
  refine ⟨⟨by decide +kernel, by decide +kernel, by decide +kernel, by cbv, by cbv,
    Flat.runs_of_run? (show Flat.run? _ 10 _ _ = _ by cbv), by decide⟩,
    by decide +kernel, by decide +kernel, by decide +kernel, by cbv, by cbv,
    Flat.runs_of_run? (show Flat.run? _ 10 _ _ = _ by cbv), by decide⟩

end Stagecraft
