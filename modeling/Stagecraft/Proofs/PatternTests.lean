import Stagecraft.Proofs.CodeRuns
import Stagecraft.Proofs.SourceTyping
import Stagecraft.Proofs.World

/-!
# Pattern tests at compile time and at run time

A pattern test is decided by the evaluator while its scrutinee is known, and by emitted code
otherwise. The evaluator goes through a value from the left and stops at the first mismatch; the
code goes through its slots from the right, takes every one of them away and clears a register for
every mismatch. On a value that is fully evaluated both give the same answer (`answer_agrees`), for
all patterns for which there is code.

`Tests` says what a pattern and its flat form have in common as far as tests go, and `LaidOut` how
the slots of a value look. `Trades` describes code that is the same whatever lies on the stacks
below.
-/

namespace Stagecraft

open Target (StackKind PerKind Nbt Instruction ScoreRange)
open Emit.Frame (held)

/-! ## Patterns for which there is code -/

mutual

/-- Whether a pattern is made of numbers, ranges, tuples, variables and wildcards. -/
def Staged.Pattern.isTest : Staged.Pattern → Bool
  | .int .. | .range .. | .var .. | .wildcard _ => true
  | .tuple _ ps => areTests ps
  | .list .. | .compound .. | .hole _ => false

/-- Whether several patterns are made of these. -/
def Staged.Pattern.areTests : List Staged.Pattern → Bool
  | [] => true
  | p :: ps => p.isTest && areTests ps

end

mutual

/-- A pattern for which there is code, and its flat form with the types that its nodes determine. -/
inductive Tests : Staged.Pattern → Flat.Pattern → Prop
  | int {info info' n} : info'.ty = .int → Tests (.int info n) (.int info' n)
  | range {info info' min max} : info'.ty = .int →
      Tests (.range info min max) (.range info' min max)
  | tuple {info info' ps qs} : info'.ty = .tuple (qs.map Flat.Pattern.ty) → AllTest ps qs →
      Tests (.tuple info ps) (.tuple info' qs)
  | var {info info' v v'} : Tests (.var info v) (.var info' v')
  | wildcard {info info'} : Tests (.wildcard info) (.wildcard info')

/-- Several patterns, with their flat forms. -/
inductive AllTest : List Staged.Pattern → List Flat.Pattern → Prop
  | nil : AllTest [] []
  | cons {p q ps qs} : Tests p q → AllTest ps qs → AllTest (p :: ps) (q :: qs)

end

section

variable {table : Staged.Table}

mutual

/-- The flat form of a pattern that checks has the types that its nodes determine. -/
theorem tests_of_mirrors : ∀ {p : Staged.Pattern} {S S' : Flat.Bindings} {q : Flat.Pattern},
    Flat.Mirrors table S p q S' → q.WellTyped S.length → p.isTest → Tests p q
  | .int .., _, _, _, .int _, h, _ => .int h
  | .range .., _, _, _, .range _, h, _ => .range h
  | .tuple .., _, _, _, .tuple _ hps, ⟨hty, h⟩, hp => .tuple hty (allTest_of_mirrors hps h hp)
  | .var .., _, _, _, .var _, _, _ => .var
  | .wildcard .., _, _, _, .wildcard _, _, _ => .wildcard

theorem allTest_of_mirrors : ∀ {ps : List Staged.Pattern} {S S' : Flat.Bindings}
    {qs : List Flat.Pattern}, Flat.MirrorsAll table S ps qs S' →
      Flat.Pattern.AllWellTyped S.length qs → Staged.Pattern.areTests ps → AllTest ps qs
  | [], _, _, _, .nil, _, _ => .nil
  | _ :: _, _, _, _, .cons hp hps, ⟨h, hs⟩, htests => by
    rw [Staged.Pattern.areTests, Bool.and_eq_true] at htests
    exact .cons (tests_of_mirrors hp h htests.1)
      (allTest_of_mirrors hps (hp.length_eq ▸ hs) htests.2)

end

end

/-! ## Values on the stacks -/

open Eval (Store CellId Value force decideMatch decideAll irrefutable allIrrefutable)

/-- Whether the slots of values of the type are told apart by a test: the number that they hold, or
the slots of their parts. -/
def Flat.Ty.isTested : Flat.Ty → Bool
  | .scalar _ | .tuple _ => true
  | .array _ | .list _ | .compound _ | .ref _ | .function .. | .union _ => false

mutual

/-- A value of a type that is fully evaluated in a store, and its slots. What the slots of a value
hold that no test looks into is left open. -/
inductive LaidOut (s : Store) : Flat.Ty → Value → Emit.Cells → Prop
  | literal {l} : LaidOut s (.scalar l.scalar) (.literal l)
      [(Flat.scalarKind l.scalar, .ofLiteral l)]
  | tuple {τs cells cs} : AllLaidOut s τs cells cs → LaidOut s (.tuple τs) (.tuple cells) cs
  | whole {τ u cs} : τ.isTested = false → u.isNeutral = false → cs.map Prod.fst = τ.erase →
      LaidOut s τ u cs

/-- Cells that hold fully evaluated values of several types, and the slots of these in order. -/
inductive AllLaidOut (s : Store) : List Flat.Ty → List CellId → Emit.Cells → Prop
  | nil : AllLaidOut s [] [] []
  | cons {τ τs c cells u cs ds} : s.read c = .forced u → LaidOut s τ u cs →
      AllLaidOut s τs cells ds → AllLaidOut s (τ :: τs) (c :: cells) (cs ++ ds)

end

mutual

/-- A value has the slots of its type. -/
theorem LaidOut.kinds {s : Store} : ∀ {τ : Flat.Ty} {u : Value} {cs : Emit.Cells},
    LaidOut s τ u cs → cs.map Prod.fst = τ.erase
  | _, _, _, .literal => rfl
  | _, _, _, .tuple h => h.kinds
  | _, _, _, .whole _ _ h => h

theorem AllLaidOut.kinds {s : Store} : ∀ {τs : List Flat.Ty} {cells : List CellId}
    {cs : Emit.Cells}, AllLaidOut s τs cells cs → cs.map Prod.fst = Flat.Ty.eraseAll τs
  | _, _, _, .nil => rfl
  | _, _, _, .cons _ h hs => by
    rw [List.map_append, h.kinds, hs.kinds, Flat.Ty.eraseAll]

end

theorem LaidOut.exists_int {s : Store} {τ : Flat.Ty} {u : Value} {cs : Emit.Cells}
    (h : LaidOut s τ u cs) (hτ : τ = .int) :
    ∃ n, u = .literal (.int n) ∧ cs = [(.int, .int n)] := by
  cases h with
  | @literal l =>
    cases l <;> cases hτ
    exact ⟨_, rfl, rfl⟩
  | tuple => cases hτ
  | whole hopen =>
    rw [hτ] at hopen
    cases hopen

theorem LaidOut.exists_tuple {s : Store} {τ : Flat.Ty} {τs : List Flat.Ty} {u : Value}
    {cs : Emit.Cells} (h : LaidOut s τ u cs) (hτ : τ = .tuple τs) :
    ∃ cells, u = .tuple cells ∧ AllLaidOut s τs cells cs := by
  cases h with
  | literal => cases hτ
  | tuple hcells =>
    cases hτ
    exact ⟨_, rfl, hcells⟩
  | whole hopen =>
    rw [hτ] at hopen
    cases hopen

/-! ## The answer of both -/

open Emit (testerPre testersPre rangePre)

/-- The evaluator gives a verdict and leaves the store as it is. It is yes if the pattern cannot
fail, and the condition that the code of a test has to meet comes down to it. -/
structure Verdict (s : Store) (p : Staged.Pattern) (q : Flat.Pattern) (u : Value)
    (cs : Emit.Cells) (b : Bool) : Prop where
  decides : ∀ eval, decideMatch (force eval) p u s = (.ok (some b), s)
  certain : ∃ certain, irrefutable p = .ok certain ∧ (certain = true → b = true)
  answers : ∀ {Q : Bool → Prop}, Q b → testerPre q cs Q

/-- Several values, as `Verdict`. -/
structure Verdicts (s : Store) (ps : List Staged.Pattern) (qs : List Flat.Pattern)
    (cells : List CellId) (cs : Emit.Cells) (b : Bool) : Prop where
  decides : ∀ eval, decideAll (force eval) true ps cells s = (.ok (some b), s)
  certain : ∃ certain, allIrrefutable ps = .ok certain ∧ (certain = true → b = true)
  answers : ∀ {Q : Bool → Prop}, Q b → testersPre qs cs Q

theorem force_of_read {s : Store} {c : CellId} {u : Value} (h : s.read c = .forced u)
    (eval : Eval.Evaluation) : force eval c s = (.ok u, s) := by
  rw [force, Memo.force, h]

/-- A part and what is behind it: a part that cannot fail is not looked at, and nothing behind a
mismatch is. -/
theorem Verdicts.cons {s : Store} {p : Staged.Pattern} {q : Flat.Pattern}
    {ps : List Staged.Pattern} {qs : List Flat.Pattern} {c : CellId} {u : Value}
    {cells : List CellId} {cs ds : Emit.Cells} {first later : Bool} (hc : s.read c = .forced u)
    (hs : Verdicts s ps qs cells ds later) (hkinds : q.ty.erase.length = cs.length)
    (h : Verdict s p q u cs first) :
    Verdicts s (p :: ps) (q :: qs) (c :: cells) (cs ++ ds) (first && later) where
  decides eval := by
    obtain ⟨certain, hcertain, hyes⟩ := h.certain
    rw [decideAll, hcertain]
    cases certain with
    | true =>
      rw [hyes rfl, Bool.true_and]
      exact hs.decides eval
    | false =>
      simp only [Eval.EvalM.ofExcept, pure_bind, Bool.false_eq_true, if_false]
      rw [Eval.EvalM.run_bind, force_of_read hc]
      dsimp only
      rw [Eval.EvalM.run_bind, h.decides]
      cases first with
      | true => exact hs.decides eval
      | false => rfl
  certain := by
    obtain ⟨certain, hcertain, hyes⟩ := h.certain
    obtain ⟨rest, hrest, hyes'⟩ := hs.certain
    rw [allIrrefutable, hcertain]
    cases certain with
    | true =>
      refine ⟨rest, hrest, fun hr => ?_⟩
      rw [hyes rfl, hyes' hr, Bool.and_self]
    | false => exact ⟨false, rfl, fun h => absurd h Bool.false_ne_true⟩
  answers {Q} hQ := by
    rw [testersPre, hkinds, List.drop_left, List.take_left]
    refine hs.answers (h.answers ?_)
    rwa [Bool.and_comm]

/-- A number at a test of its range. -/
theorem Verdict.number {s : Store} {p : Staged.Pattern} {q : Flat.Pattern} (range : ScoreRange)
    {n : Int32} (hdecides : ∀ eval, decideMatch (force eval) p (.literal (.int n)) s =
      (.ok (some (range.contains n)), s)) (hcertain : irrefutable p = .ok false)
    (hanswers : testerPre q = rangePre range) :
    Verdict s p q (.literal (.int n)) [(.int, .int n)] (range.contains n) where
  decides := hdecides
  certain := ⟨false, hcertain, fun h => absurd h Bool.false_ne_true⟩
  answers hQ := hanswers ▸ ⟨.int n, n, rfl, rfl, hQ⟩

mutual

/-- The evaluator and the code agree on a value that is fully evaluated. -/
theorem exists_verdict {s : Store} : ∀ {p : Staged.Pattern} {q : Flat.Pattern} {u : Value}
    {cs : Emit.Cells}, Tests p q → LaidOut s q.ty u cs → ∃ b, Verdict s p q u cs b
  | .int _ m, _, _, _, .int hty, hu => by
    obtain ⟨n, rfl, rfl⟩ := hu.exists_int hty
    refine ⟨_, .number (.exactly m) (fun eval => ?_) rfl rfl⟩
    have hsame : (ScoreRange.exactly m).contains n = (n == m) := Bool.eq_iff_iff.2
      ((ScoreRange.contains_exactly m n).trans (eq_comm.trans beq_iff_eq.symm))
    rw [hsame]
    rfl
  | .range _ min max, _, _, _, .range hty, hu => by
    obtain ⟨n, rfl, rfl⟩ := hu.exists_int hty
    exact ⟨_, .number (.between min max) (fun _ => rfl) rfl rfl⟩
  | .tuple info ps, _, _, _, .tuple hty hps, hu => by
    obtain ⟨cells, rfl, hcells⟩ := hu.exists_tuple hty
    obtain ⟨b, hlength, hb⟩ := exists_verdicts hps hcells
    refine ⟨b, fun eval => ?_, hb.certain, hb.answers⟩
    rw [decideMatch, if_neg (by simp [Value.isNeutral]), if_pos hlength]
    exact hb.decides eval
  | .var .., _, _, _, .var, hu | .wildcard .., _, _, _, .wildcard, hu =>
    ⟨true, fun _ => rfl, ⟨true, rfl, fun _ => rfl⟩, fun hQ => ⟨hu.kinds, hQ⟩⟩

theorem exists_verdicts {s : Store} : ∀ {ps : List Staged.Pattern} {qs : List Flat.Pattern}
    {cells : List CellId} {cs : Emit.Cells}, AllTest ps qs →
      AllLaidOut s (qs.map Flat.Pattern.ty) cells cs →
        ∃ b, ps.length = cells.length ∧ Verdicts s ps qs cells cs b
  | [], _, _, _, .nil, .nil =>
    ⟨true, rfl, fun _ => rfl, ⟨true, rfl, fun _ => rfl⟩, fun hQ => ⟨rfl, hQ⟩⟩
  | p :: ps, q :: qs, _, _, .cons hp hps, .cons hc hu hcells => by
    obtain ⟨first, hfirst⟩ := exists_verdict hp hu
    obtain ⟨later, hlength, hlater⟩ := exists_verdicts hps hcells
    refine ⟨first && later, congrArg Nat.succ hlength, hlater.cons hc ?_ hfirst⟩
    rw [← hu.kinds, List.length_map]

end

/-! ## Code that is the same whatever lies below -/

namespace Emit

open Machine (State run)

theorem Slots.pushAll_append (slots : Slots) (ks js : List StackKind) :
    slots.pushAll (ks ++ js) = (slots.pushAll ks).pushAll js :=
  List.foldl_append

/-- A slot that was pushed can be taken out again. -/
theorem Slots.remove_push (slots : Slots) (k : StackKind) :
    (slots.push k).remove k (-1) = .ok (.free, slots) := by
  have hstack : (slots.push k).stack k = .free :: slots.stack k := by
    rw [stack_push, if_pos rfl]
  have hdepth : (slots.push k).depth? k (-1) = some 0 := by
    have hlength : 0 < (slots.push k).length k := by
      rw [length, hstack]
      exact Nat.succ_pos _
    simp [depth?, hlength]
  have hslots : (⟨(slots.push k).byKind.update k (·.eraseIdx 0)⟩ : Slots) = slots := by
    refine congrArg Slots.mk (Target.PerKind.ext_get fun j => ?_)
    rw [PerKind.update, PerKind.get_set]
    by_cases hj : k = j
    · rw [if_pos hj, ← hj]
      change ((slots.push k).stack k).eraseIdx 0 = _
      rw [hstack]
      rfl
    · rw [if_neg hj]
      change (slots.push k).stack j = _
      rw [stack_push, if_neg hj]
      rfl
  rw [remove, hdepth]
  dsimp only
  rw [hstack]
  simp only [List.getElem?_cons_zero, hslots]

/-- On every model, from slots of some kinds on top, the computation goes through and leaves slots
of other kinds in their place. It adds these instructions. -/
def Trades (x : EmitM Unit) (ks js : List StackKind) (is : List Instruction) : Prop :=
  ∀ (slots : Slots) (before : Array Instruction),
    x ⟨slots.pushAll ks, before⟩ = .ok ((), ⟨slots.pushAll js, before ++ is.toArray⟩)

namespace Trades

variable {ks js ls : List StackKind} {is is' : List Instruction}

/-- A change of the model alone. -/
theorem silent {x : EmitM Unit} (h : ∀ (slots : Slots) before,
    x ⟨slots.pushAll ks, before⟩ = .ok ((), ⟨slots.pushAll js, before⟩)) : Trades x ks js [] := by
  intro slots before
  rw [h, Array.append_empty]

theorem ret (ks : List StackKind) : Trades (pure ()) ks ks [] := .silent fun _ _ => rfl

theorem emit (i : Instruction) (ks : List StackKind) : Trades (emit i) ks ks [i] := fun _ _ => rfl

theorem seq {x y : EmitM Unit} (hx : Trades x ks js is) (hy : Trades y js ls is') :
    Trades (x >>= fun _ => y) ks ls (is ++ is') := by
  intro slots before
  change (x ⟨slots.pushAll ks, before⟩ >>= fun r => y r.2) = _
  rw [hx]
  change y ⟨slots.pushAll js, before ++ is.toArray⟩ = _
  rw [hy, Array.append_assoc]
  simp only [List.append_toArray]

/-- More slots below. -/
theorem above {x : EmitM Unit} (h : Trades x ks js is) (ls : List StackKind) :
    Trades x (ls ++ ks) (ls ++ js) is := by
  intro slots before
  rw [Slots.pushAll_append, Slots.pushAll_append]
  exact h (slots.pushAll ls) before

end Trades

variable (options : Options)

theorem exists_trades_comment (line : String) (ks : List StackKind) :
    ∃ is, Trades (comment options line) ks ks is := by
  unfold comment
  split
  · exact ⟨_, .emit _ ks⟩
  · exact ⟨_, .ret ks⟩

theorem exists_trades_drop (k : StackKind) : ∃ is, Trades (drop options k []) [k] [] is := by
  have htake : Trades (tryFollow fun s => return (← s.remove k (-1)).2) [k] [] [] := by
    refine .silent fun slots before => ?_
    change (liftM ((slots.push k).remove k (-1) >>= fun r => Except.ok r.2) >>= fun s =>
      set (⟨s, before⟩ : Output) : EmitM Unit) _ = _
    rw [Slots.remove_push]
    rfl
  have htop : -1 - Int32.ofNat ([].count k) = -1 := by
    rw [List.count_nil]
    rfl
  unfold drop removeAt
  rw [htop]
  by_cases hk : k = .endTag
  · rw [if_neg (not_not_intro hk)]
    exact ⟨_, htake.seq (.ret [])⟩
  · rw [if_pos hk]
    obtain ⟨is, hcomment⟩ := exists_trades_comment options _ []
    exact ⟨_, htake.seq (hcomment.seq (.emit _ []))⟩

theorem exists_trades_push (k : StackKind) (source : Target.Source) :
    ∃ is, Trades (push options k source) [] [k] is := by
  have hfollow : Trades (follow (·.push k)) [] [k] [] := .silent fun _ _ => rfl
  unfold push
  by_cases hk : k = .endTag
  · rw [if_neg (not_not_intro hk)]
    exact ⟨_, (Trades.ret []).seq hfollow⟩
  · rw [if_pos hk]
    obtain ⟨is, hcomment⟩ := exists_trades_comment options _ []
    exact ⟨_, hcomment.seq ((Trades.emit _ []).seq hfollow)⟩

theorem exists_trades_dropAll (ks : List StackKind) :
    ∃ is, Trades (dropAll options [] ks.reverse) ks [] is := by
  induction ks using List.reverseRecOn with
  | nil => exact ⟨_, .ret []⟩
  | append_singleton ks k ih =>
    obtain ⟨is, hdrop⟩ := exists_trades_drop options k
    obtain ⟨is', hdropAll⟩ := ih
    rw [List.reverse_concat, dropAll]
    exact ⟨_, (List.append_nil ks ▸ hdrop.above ks).seq hdropAll⟩

theorem exists_trades_testInt (range : ScoreRange) :
    ∃ is, Trades (testInt options range) [.int] [] is := by
  obtain ⟨is, hdrop⟩ := exists_trades_drop options .int
  exact ⟨_, (Trades.emit _ [.int]).seq (hdrop.seq (.emit _ []))⟩

mutual

/-- A test takes away the slots of the value. -/
theorem exists_trades_test : ∀ {p : Staged.Pattern} {q : Flat.Pattern}, Tests p q →
    ∃ is, Trades (test options q) q.ty.erase [] is
  | .int .., .int .., .int hty | .range .., .range .., .range hty => by
    rw [test, Flat.Pattern.ty, Flat.Pattern.info, hty]
    exact exists_trades_testInt options _
  | .tuple .., .tuple .., .tuple hty hps => by
    rw [test, Flat.Pattern.ty, Flat.Pattern.info, hty]
    exact exists_trades_testAll hps
  | .var .., .var info' _, .var | .wildcard _, .wildcard info', .wildcard => by
    rw [test]
    exact exists_trades_dropAll options info'.ty.erase

theorem exists_trades_testAll : ∀ {ps : List Staged.Pattern} {qs : List Flat.Pattern},
    AllTest ps qs → ∃ is, Trades (testAll options qs)
      (Flat.Ty.eraseAll (qs.map Flat.Pattern.ty)) [] is
  | [], [], .nil => ⟨_, .ret []⟩
  | _ :: _, q :: qs, .cons hp hps => by
    obtain ⟨is, hlater⟩ := exists_trades_testAll hps
    obtain ⟨is', hfirst⟩ := exists_trades_test hp
    rw [testAll, List.map_cons, Flat.Ty.eraseAll]
    exact ⟨_, (List.append_nil q.ty.erase ▸ hlater.above q.ty.erase).seq hfirst⟩

end

theorem exists_trades_answer {p : Staged.Pattern} {q : Flat.Pattern} (h : Tests p q) :
    ∃ is, Trades (answer options q) q.ty.erase [.byte] is := by
  obtain ⟨is, htest⟩ := exists_trades_test options h
  obtain ⟨is', hpush⟩ := exists_trades_push options .byte (.value (.byte 0))
  exact ⟨_, (Trades.emit _ _).seq (htest.seq (hpush.seq (.emit _ _)))⟩

/-! ## Runs -/

/-- No calls. -/
def noCalls : Machine.Calls where
  lead _ _ _ := False
  mono _ h := h

/-- The code of a test, on the slots of a value for which its condition comes down to an answer,
ends with that answer in place of the value, whatever the machine has below. -/
theorem run_answer {q : Flat.Pattern} {is : List Instruction} {cs : Cells} {b : Bool}
    (hcode : Trades (answer options q) q.ty.erase [.byte] is)
    (hkinds : cs.map Prod.fst = q.ty.erase)
    (hcs : ∀ {Q : Bool → Prop}, Q b → testerPre q cs Q) (program : Machine.Program) (s : State) :
    ∃ n t, t.stack = s.stack ∧ ∀ m, run program (n + m) is (pushCells s cs) =
      ⟨pushCells t [(.byte, .byte (if b then 1 else 0))], m, none⟩ := by
  obtain ⟨x, hx⟩ := PerKind.exists_get (held .free cs).values
  let start : State := { s with byKind := x }
  have hstart : Matches (held .free cs ++ Frame.empty) (Slots.empty.pushAll q.ty.erase) start := by
    refine ⟨hkinds ▸ Slots.uses_pushAll (funext fun k => ?_) cs, ?_⟩
    · rw [Slots.stack, Slots.empty, PerKind.get_const]
      rfl
    · rw [Frame.append_empty]
      exact funext hx
  obtain ⟨is', his, hleads⟩ := emits_answer (c := noCalls) options q _ _ _
    (hcode Slots.empty #[])
  obtain rfl : is = is' := by simpa using his
  have hleads := hleads start (fun _ _ s' => s'.stack =
    (held .free [(.byte, .byte (if b then 1 else 0))] ++ Frame.empty).values)
      ⟨cs, Frame.empty, hstart, hcs fun _ _ h => h.values⟩
  have hcalls : noCalls.Realized (fun _ : Unit => program) fun _ => s.byKind :=
    fun _ _ _ h => False.elim h
  obtain ⟨n, s', hs', hrun⟩ := Machine.ends_of_leads hcalls hleads
  have hbelow : ∀ k, s.stack k = Frame.empty.values k ++ s.byKind.get k := fun k => by
    simp [Frame.values, State.stack]
  have hbefore : start.above s.byKind = pushCells s cs :=
    above_eq_pushCells hstart.values hbelow ⟨rfl, rfl, rfl⟩
  have hafter : s'.above s.byKind = pushCells { s' with byKind := s.byKind }
      [(.byte, .byte (if b then 1 else 0))] := above_eq_pushCells hs' hbelow ⟨rfl, rfl, rfl⟩
  refine ⟨n, { s' with byKind := s.byKind }, rfl, fun m => ?_⟩
  rw [← hbefore, ← hafter]
  exact hrun m ()

end Emit

/-! ## Both together -/

/-- The code of a test and the evaluator agree. The code is the same wherever the value lies. On the
slots of a fully evaluated value of the type of the pattern it ends with a byte in their place, and
everything below and the registers it starts with do not matter. The byte is one where the evaluator
says yes and zero where it says no, and it always says one or the other. -/
theorem answer_agrees (options : Emit.Options) (table : Staged.Table) (p : Staged.Pattern)
    (hp : p.isTest) (hchecks : p.Checks table) (S S' : Flat.Bindings) (q : Flat.Pattern)
    (hq : Flat.Pattern.ofStaged table S p = .ok (q, S')) :
    ∃ is : List Instruction,
      (∀ ty e, Emit.term options (.test ty e q) =
        Emit.term options e >>= fun _ => Emit.answer options q) ∧
      (∀ (slots : Emit.Slots) before, Emit.answer options q ⟨slots.pushAll q.ty.erase, before⟩ =
        .ok ((), ⟨slots.push .byte, before ++ is.toArray⟩)) ∧
      ∀ (s : Store) (u : Value) (cs : Emit.Cells), LaidOut s q.ty u cs → ∃ b : Bool,
        (∀ cx fuel, decideMatch (force (Eval.evaluate cx fuel)) p u s = (.ok (some b), s)) ∧
        ∀ (program : Machine.Program) (state : Machine.State), ∃ n t, t.stack = state.stack ∧
          ∀ m, Machine.run program (n + m) is (Emit.pushCells state cs) =
            ⟨Emit.pushCells t [(.byte, .byte (if b then 1 else 0))], m, none⟩ := by
  have hmirrors := Flat.mirrors_ofStaged hq
  have htests := tests_of_mirrors hmirrors (hmirrors.wellTyped hchecks) hp
  obtain ⟨is, hcode⟩ := Emit.exists_trades_answer options htests
  refine ⟨is, fun ty e => Emit.term_test options ty e q, hcode, fun s u cs hu => ?_⟩
  obtain ⟨b, hb⟩ := exists_verdict htests hu
  exact ⟨b, fun cx fuel => hb.decides _, Emit.run_answer options hcode hu.kinds hb.answers⟩

/-- A mismatch behind a nested tuple, and a list that is not looked into. -/
theorem answer_agrees_mismatch :
    let table : Staged.Table := ⟨[], by decide⟩
    let plain (ty : Staged.Ty) : Staged.PatternInfo := ⟨[], ty⟩
    let pair : Staged.Pattern := .tuple (plain (.tuple [.int, .scalar .string]))
      [.range (plain .int) 1 3, .var (plain (.scalar .string)) ⟨"text", 0⟩]
    let p : Staged.Pattern := .tuple (plain (.tuple [pair.ty, .int, .list .int]))
      [pair, .int (plain .int) 5, .wildcard (plain (.list .int))]
    let q : Flat.Pattern := .tuple ⟨[], .tuple [.tuple [.int, .scalar .string], .int, .list .int]⟩
      [.tuple ⟨[], .tuple [.int, .scalar .string]⟩
        [.range ⟨[], .int⟩ 1 3, .var ⟨[], .scalar .string⟩ ⟨"text", 0⟩],
        .int ⟨[], .int⟩ 5, .wildcard ⟨[], .list .int⟩]
    let s : Store := ⟨#[.forced (.tuple [1, 2]), .forced (.literal (.int 2)),
      .forced (.literal (.string "x")), .forced (.literal (.int 7)), .forced (.list [3])]⟩
    let cs : Emit.Cells := [(.int, .int 2), (.string, .string "x"), (.int, .int 7),
      (.list, .list [.int 7])]
    (p.isTest = true ∧ p.Checks table ∧
      Flat.Pattern.ofStaged table .empty p = .ok (q, ⟨[⟨"text", .scalar .string⟩]⟩) ∧
      LaidOut s q.ty (.tuple [0, 3, 4]) cs) ∧
    ∃ is : List Instruction,
      Emit.answer ⟨"demo", true⟩ q ⟨Emit.Slots.empty.pushAll q.ty.erase, #[]⟩ =
        .ok ((), ⟨Emit.Slots.empty.push .byte, is.toArray⟩) ∧
      ∀ (program : Machine.Program) (state : Machine.State), ∃ n t, t.stack = state.stack ∧
        ∀ m, Machine.run program (n + m) is (Emit.pushCells state cs) =
          ⟨Emit.pushCells t [(.byte, .byte 0)], m, none⟩ := by
  intro table plain pair p q s cs
  have hchecks : p.Checks table :=
    ⟨rfl, ⟨rfl, rfl, trivial, trivial⟩, rfl, trivial, trivial⟩
  have hpair : LaidOut s (.tuple [.int, .scalar .string]) (.tuple [1, 2])
      [(.int, .int 2), (.string, .string "x")] :=
    .tuple (.cons rfl (.literal (l := .int 2)) (.cons rfl (.literal (l := .string "x")) .nil))
  have hlist : LaidOut s (.list .int) (.list [3]) [(.list, .list [.int 7])] := .whole rfl rfl rfl
  have hu : LaidOut s q.ty (.tuple [0, 3, 4]) cs :=
    .tuple (.cons rfl hpair (.cons rfl (.literal (l := .int 7)) (.cons rfl hlist .nil)))
  refine ⟨⟨rfl, hchecks, rfl, hu⟩, ?_⟩
  obtain ⟨is, -, hcode, hruns⟩ := answer_agrees ⟨"demo", true⟩ table p rfl hchecks .empty _ q rfl
  obtain ⟨b, hb, hrun⟩ := hruns s _ cs hu
  have hmismatch : b = false := by
    have hverdict : decideMatch (force (Eval.evaluate ⟨table, [], 0⟩ 0)) p (.tuple [0, 3, 4]) s =
      (.ok (some false), s) := rfl
    have := hb ⟨table, [], 0⟩ 0
    rw [hverdict] at this
    cases this
    rfl
  refine ⟨is, ?_, by rwa [hmismatch] at hrun⟩
  have := hcode Emit.Slots.empty #[]
  rwa [Array.empty_append] at this

end Stagecraft
