import Stagecraft.Proofs.CellEvaluation
import Stagecraft.Proofs.Dispatch
import Stagecraft.Proofs.StackDiscipline

/-!
# Runs of emitted code

A machine that has the code of a well-typed flat program runs it as call by value does. A call on
the slots of a value either runs out of fuel or ends, and then the slots of a value that running the
definition gives stand in place of those of the argument (`call_runs`). So the machine never stops
with another failure, and whatever it completes is right.

Fuel bounds the depth of calls. The induction is on it: the code of one function is described by its
weakest precondition, in which callees are known by what running them gives (`Emit.runCallees`), and
a call inside it has less fuel than the call of the function. A run that ends for lack of fuel is
left out of account (`Outcome.Reaches`).
-/

namespace Stagecraft.Machine

open Target (StackKind PerKind Nbt Location Instruction)

/-! ## Runs with a bound on fuel -/

/-- A run ends in a state that satisfies the condition, unless it runs out of fuel. -/
def Outcome.Reaches (o : Outcome) (Q : State → Prop) : Prop :=
  o.error = some .outOfFuel ∨ o.error = none ∧ Q o.state

theorem Outcome.Reaches.mono {o : Outcome} {Q Q' : State → Prop} (hQ : ∀ s, Q s → Q' s)
    (h : o.Reaches Q) : o.Reaches Q' :=
  h.imp_right fun ⟨hnone, hs⟩ => ⟨hnone, hQ _ hs⟩

/-- What a condition says of states without the slots under them. -/
def Over (base : PerKind (List Nbt)) (Q : State → Prop) (s : State) : Prop :=
  ∃ t, Q t ∧ s = t.above base

section

variable {p : Program} {c : Calls} {base : PerKind (List Nbt)} {n : Nat}

theorem reaches_append {fuel : Nat} {is js : List Instruction} {s : State} {Q : State → Prop}
    (h : (run p fuel is s).Reaches fun t => ∀ fuel' ≤ fuel, (run p fuel' js t).Reaches Q) :
    (run p fuel (is ++ js) s).Reaches Q := by
  rw [run_append]
  obtain hlack | ⟨hnone, hjs⟩ := h
  · rw [hlack]
    exact .inl hlack
  · rw [hnone]
    exact hjs _ (fuel_run_le p fuel is s)

variable (hc : ∀ l s Q, c.lead l s Q → ∀ fuel < n,
  (call p fuel l (s.above base)).Reaches (Over base Q))

include hc

theorem reaches_of_leadsOne {i : Instruction} {s : State} {Q : State → Prop}
    (h : leadsOne c i s Q) {fuel : Nat} (hfuel : fuel ≤ n) :
    (run p fuel [i] (s.above base)).Reaches (Over base Q) := by
  induction i generalizing fuel with
  | call l =>
    cases fuel with
    | zero => exact .inl (by rw [run])
    | succ fuel =>
      rw [run_call]
      obtain hlack | ⟨hnone, hQ⟩ := hc l s Q h fuel (by omega)
      · rw [hlack]
        exact .inl hlack
      · rw [hnone]
        exact .inr ⟨by rw [run], by rwa [run]⟩
  | ifScore negated r range body ih =>
    cases fuel with
    | zero => exact .inl (by rw [run])
    | succ fuel =>
      have hscore : (s.above base).score r = s.score r := by cases r <;> rfl
      rw [leadsOne] at h
      rw [run, hscore]
      split at h
      · next hr =>
        rw [if_pos hr]
        exact ih h (by omega)
      · next hr =>
        rw [if_neg hr, run]
        exact .inr ⟨rfl, s, h, rfl⟩
  | _ =>
    obtain ⟨hi, t, ht, hQ⟩ := h
    have hrun := State.apply_above hi ht base
    cases fuel with
    | zero => exact .inl (by rw [run])
    | succ fuel =>
      simp only [run, hrun]
      exact .inr ⟨rfl, t, hQ, rfl⟩

/-- Code whose weakest precondition holds never fails for another reason than a lack of fuel, and
what it ends in satisfies the condition, if calls with less fuel do as they are known to. -/
theorem reaches_of_leads {is : List Instruction} {s : State} {Q : State → Prop}
    (h : leads c is s Q) {fuel : Nat} (hfuel : fuel ≤ n) :
    (run p fuel is (s.above base)).Reaches (Over base Q) := by
  induction is generalizing s fuel with
  | nil =>
    rw [run]
    exact .inr ⟨rfl, s, h, rfl⟩
  | cons i is ih =>
    rw [← List.singleton_append]
    refine reaches_append ((reaches_of_leadsOne hc h hfuel).mono ?_)
    rintro _ ⟨t, ht, rfl⟩ fuel' hle
    exact ih ht (Nat.le_trans hle hfuel)

end

/-! ## Guards -/

section

variable {p : Program} {s : State} {Q : State → Prop}

theorem reaches_guards {guards : List (Nat × Location)}
    (h : ∀ g ∈ guards, Int32.ofNat g.1 ≠ s.result) (hQ : Q s) (fuel : Nat) :
    (run p fuel (guards.map guarded) s).Reaches Q := by
  induction guards generalizing fuel with
  | nil =>
    rw [List.map_nil, run]
    exact .inr ⟨rfl, hQ⟩
  | cons g guards ih =>
    cases fuel with
    | zero => exact .inl (by rw [List.map_cons, run])
    | succ fuel =>
      rw [List.map_cons, ← outcome_activation, activation_guarded_of_ne (h g List.mem_cons_self),
        outcome_activation]
      exact ih (fun g hg => h g (List.mem_cons_of_mem _ hg)) fuel

/-- Among guards with tags of their own the one whose tag is in the register makes its call. If the
callee puts that tag back, what it leaves is what they leave. -/
theorem reaches_guarded {before after : List (Nat × Location)} {g : Nat × Location}
    (hg : Int32.ofNat g.1 = s.result)
    (hbefore : ∀ g' ∈ before, Int32.ofNat g'.1 ≠ Int32.ofNat g.1)
    (hafter : ∀ g' ∈ after, Int32.ofNat g'.1 ≠ Int32.ofNat g.1) {fuel : Nat}
    (hcall : ∀ fuel' < fuel, (call p fuel' g.2 s).Reaches Q)
    (hrestore : ∀ t, Q t → t.result = Int32.ofNat g.1) :
    (run p fuel ((before ++ g :: after).map guarded) s).Reaches Q := by
  rw [List.map_append]
  refine reaches_append ((reaches_guards (Q := (· = s)) (hg ▸ hbefore) rfl fuel).mono ?_)
  rintro _ rfl fuel' hle
  rw [List.map_cons]
  match fuel' with
  | 0 => exact .inl (by rw [run])
  | 1 =>
    rw [← outcome_activation, activation_guarded_of_eq hg, outcome_activation]
    exact .inl (by rw [run])
  | fuel' + 2 =>
    rw [← outcome_activation, activation_guarded_of_eq hg, outcome_activation, run_call]
    obtain hlack | ⟨hnone, hQ⟩ := hcall fuel' (by omega)
    · rw [hlack]
      exact .inl hlack
    -- the callee has put the tag back, so the guards after it stay quiet
    · rw [hnone]
      exact reaches_guards (hrestore _ hQ ▸ hafter) hQ _

end

end Stagecraft.Machine

namespace Stagecraft.Emit

open Target (StackKind PerKind Nbt Location Instruction)
open Machine (State)
open Flat (Ty Pattern Term Value Capture HasType Inhabits FieldsInhabit Runs Capturable)
open Emit.Frame (held)

/-! ## Natives -/

/-- The native function of the evaluator that computes what one of the machine does. -/
def evaluated : Machine.Native → Eval.Native
  | .add => .intAdd
  | .sub => .intSub
  | .mul => .intMul
  | .eq => .intEq
  | .lt => .intLt

/-- Both native functions give the same on integers. -/
theorem exists_native? (n : Machine.Native) (a b : Int32) :
    ∃ l, Flat.native? (evaluated n) (.tuple [.literal (.int a), .literal (.int b)]) =
        some (.literal l) ∧ l.scalar = nativeScalar n ∧
      cells (.literal l) = [n.result a b] := by
  cases n with
  | add | sub | mul => exact ⟨_, rfl, rfl, rfl⟩
  | eq =>
    refine ⟨_, rfl, rfl, ?_⟩
    by_cases h : a = b <;> simp [cells, Machine.Native.result, Nbt.ofLiteral, kindOf, h]
  | lt =>
    refine ⟨_, rfl, rfl, ?_⟩
    by_cases h : a < b <;> simp [cells, Machine.Native.result, Nbt.ofLiteral, kindOf, h]

/-! ## Programs -/

/-- A machine has the code of a flat program: that of its functions, with less than 2³¹ slots and
array elements in each, that of the dispatcher, and a native function behind every builtin, which
computes what the native function of the program does. -/
structure Implements (p : Machine.Program) (options : Options) (P : Flat.Program) : Prop where
  function : ∀ {name f}, P.function? name = some f → functionWeight f < 2 ^ 31 ∧
    Keyed.find? (.ofName options.nspace name) p.natives = none ∧
    ∃ is, Emit.function options f = .ok is ∧
      Keyed.find? (.ofName options.nspace name) p.functions = some is
  builtin : ∀ {name b}, P.find? name = some (.builtin b) → ∃ n : Machine.Native,
    Keyed.find? (.ofName options.nspace name) p.natives = some n.run ∧
    Keyed.find? name P.natives = some (evaluated n) ∧
    b.param = .tuple [.int, .int] ∧ b.result = .scalar (nativeScalar n)
  dispatcher : Keyed.find? (.ofName options.nspace Flat.dispatcher) p.natives = none ∧
    ∃ is, dispatcher options P.closures = .function (.ofName options.nspace Flat.dispatcher) is ∧
      Keyed.find? (.ofName options.nspace Flat.dispatcher) p.functions = some is
  tags : P.closures.size ≤ 2 ^ 32

/-! ## Calls -/

/-- Slots over a prefix are cells on top of what a state has below them. -/
theorem above_eq_pushCells {s t : State} {cs : Cells} {F : Emit.Frame}
    {base : PerKind (List Nbt)} (hs : s.stack = (held .free cs ++ F).values)
    (ht : ∀ k, t.stack k = F.values k ++ base.get k)
    (hrest : s.result = t.result ∧ s.scratch = t.scratch ∧ s.commands = t.commands) :
    s.above base = pushCells t cs := by
  obtain ⟨hr, hsc, hco⟩ := rest_pushCells cs t
  refine State.ext_stack (fun k => ?_) (hrest.1.trans hr.symm) (hrest.2.1.trans hsc.symm)
    (hrest.2.2.trans hco.symm)
  rw [State.stack_above, stack_pushCells, hs, Frame.values_append, ht, List.append_assoc]

/-- The cells on top of a frame over a prefix are on top of another state. -/
theorem exists_eq_pushCells {s : State} {cs : Cells} {F : Emit.Frame}
    (hs : s.stack = (held .free cs ++ F).values) (base : PerKind (List Nbt)) :
    ∃ t : State, s.above base = pushCells t cs ∧ (∀ k, t.stack k = F.values k ++ base.get k) ∧
      t.result = s.result := by
  obtain ⟨x, hx⟩ := PerKind.exists_get fun k => F.values k ++ base.get k
  exact ⟨{ s with byKind := x }, above_eq_pushCells hs hx ⟨rfl, rfl, rfl⟩, hx, rfl⟩

/-- Cells on top of a state that has a frame over a prefix are on top of the frame. -/
theorem exists_eq_above {t : State} {F : Emit.Frame} {base : PerKind (List Nbt)}
    (ht : ∀ k, t.stack k = F.values k ++ base.get k) (cs : Cells) :
    ∃ s : State, pushCells t cs = s.above base ∧ s.stack = (held .free cs ++ F).values ∧
      s.result = t.result := by
  obtain ⟨y, hy⟩ := PerKind.exists_get (held .free cs ++ F).values
  have hs : ({ t with byKind := y } : State).stack = (held .free cs ++ F).values := funext hy
  exact ⟨_, (above_eq_pushCells hs ht ⟨rfl, rfl, rfl⟩).symm, hs, rfl⟩

/-- What a call leaves: in place of the argument the cells of a value of a type, of which a property
is known, and a score in the result register, if one is to be restored. -/
def Answer (P : Flat.Program) (takes : DefName → Ty → Ty → Prop) (τ : Ty) (restore : Option Int32)
    (R : Value → Prop) (s s' : State) : Prop :=
  ∃ r t, R r ∧ Inhabits P takes r τ ∧ s' = pushCells t (cells r) ∧ t.stack = s.stack ∧
    ∀ n, restore = some n → t.result = n

/-- With less fuel than a bound, calls leave what they are known to give. -/
def AnswersBelow (P : Flat.Program) (takes : DefName → Ty → Ty → Prop) (p : Machine.Program)
    (options : Options) (n : Nat) : Prop :=
  ∀ {name as τ restore R}, Gives P takes name as τ restore R → ∀ s : State, ∀ fuel < n,
    (Machine.call p fuel (.ofName options.nspace name) (pushCells s as)).Reaches
      (Answer P takes τ restore R s)

section

variable {P : Flat.Program} {takes : DefName → Ty → Ty → Prop} {p : Machine.Program}
  {options : Options} {n : Nat}

/-- A call in the code of a function leaves what its weakest precondition takes it to. -/
theorem reaches_call (h : AnswersBelow P takes p options n) {base : PerKind (List Nbt)}
    {l : Location} {s : State} {Q : State → Prop}
    (hlead : ((runCallees P takes).calls options).lead l s Q) :
    ∀ fuel < n, (Machine.call p fuel l (s.above base)).Reaches (Machine.Over base Q) := by
  obtain ⟨name, keeps, as, F, C, rfl, hs, ⟨τ, restore, R, hgives, hkeeps, hR⟩, hQ⟩ := hlead
  intro fuel hfuel
  obtain ⟨u, hu, hbelow, -⟩ := exists_eq_pushCells hs base
  rw [hu]
  refine (h hgives _ fuel hfuel).mono ?_
  rintro _ ⟨r, t, hr, hτ, rfl, ht, hrestore⟩
  obtain ⟨s', hs', hstack, hresult⟩ := exists_eq_above (ht ▸ hbelow) (cells r)
  refine ⟨s', hQ (cells r) _ (hR r hr hτ) hstack fun hk _ => ?_, hs'⟩
  obtain ⟨m, rfl, hm⟩ := hkeeps hk
  rwa [hresult, hrestore m rfl]

/-- The code of a function leaves a value of which the condition of its weakest precondition
holds. -/
theorem reaches_code (h : AnswersBelow P takes p options n) {f : Flat.Function}
    {is : List Instruction} (hcode : function options f = .ok is)
    (hweight : functionWeight f < 2 ^ 31) {as : Cells} {τ : Ty} {R : Value → Prop}
    (hpre : functionPre (runCallees P takes) f as fun rs =>
      ∃ r, rs = cells r ∧ R r ∧ Inhabits P takes r τ) (s : State) {fuel : Nat} (hfuel : fuel ≤ n) :
    (Machine.run p fuel is (pushCells s as)).Reaches (Answer P takes τ f.restore R s) := by
  -- on its own slots the code is described by its weakest precondition
  have hstack : (pushCells { s with byKind := .const [] } as).stack = (held .free as).values :=
    funext fun k => by rw [stack_pushCells]; simp [State.stack]
  have hbelow : ∀ k, s.stack k = Frame.empty.values k ++ s.byKind.get k := fun k => by
    simp [Frame.values, Frame.empty, State.stack]
  have hbefore : (pushCells { s with byKind := .const [] } as).above s.byKind = pushCells s as :=
    above_eq_pushCells (by rwa [Frame.append_empty]) hbelow (rest_pushCells as _)
  have hleads := leads_function options hcode hweight hstack hpre
  rw [← hbefore]
  refine (Machine.reaches_of_leads (fun l s Q => reaches_call h) hleads hfuel).mono ?_
  rintro _ ⟨t, ⟨_, ⟨r, rfl, hr, hτ⟩, ht, hrestore⟩, rfl⟩
  refine ⟨r, { t with byKind := s.byKind }, hr, hτ, ?_, rfl, hrestore⟩
  exact above_eq_pushCells (by rwa [Frame.append_empty]) hbelow ⟨rfl, rfl, rfl⟩

theorem pushCells_append (s : State) (cs ds : Cells) :
    pushCells s (cs ++ ds) = pushCells (pushCells s cs) ds := by
  rw [pushCells, List.foldl_append]
  rfl

theorem setScore_pushCells (s : State) (m : Int32) (cs : Cells) :
    (pushCells s cs).setScore .result m = pushCells (s.setScore .result m) cs := by
  obtain ⟨-, hsc, hco⟩ := rest_pushCells cs s
  obtain ⟨hr', hsc', hco'⟩ := rest_pushCells cs (s.setScore .result m)
  refine State.ext_stack (fun k => ?_) hr'.symm (hsc.trans hsc'.symm) (hco.trans hco'.symm)
  rw [stack_pushCells]
  exact stack_pushCells cs s k

/-- The natives of a machine leave what the builtins of the program give. -/
theorem reaches_builtin (himpl : Implements p options P) {name : DefName} {b : Flat.Builtin}
    (hb : P.find? name = some (.builtin b)) {w : Value} (hw : Inhabits P takes w b.param)
    (s : State) (fuel : Nat) : (Machine.call p fuel (.ofName options.nspace name)
      (pushCells s (cells w))).Reaches (Answer P takes b.result none (Runs P name w) s) := by
  obtain ⟨m, hm, hnative, hparam, hresult⟩ := himpl.builtin hb
  rw [hparam] at hw
  obtain ⟨x, y, rfl⟩ : ∃ x y, w = .tuple [.literal (.int x), .literal (.int y)] := by
    cases hw with
    | tuple hall =>
      cases hall with
      | cons hx hrest =>
        cases hrest with
        | cons hy hnil =>
          cases hnil
          obtain ⟨x, rfl⟩ := exists_int rfl hx
          obtain ⟨y, rfl⟩ := exists_int rfl hy
          exact ⟨x, y, rfl⟩
  obtain ⟨l, hl, hscalar, hcells⟩ := exists_native? m x y
  have hargs : pushCells s (cells (.tuple [.literal (.int x), .literal (.int y)])) =
      (s.push .int (.int x)).push .int (.int y) := rfl
  rw [hargs, Machine.call, hm]
  simp only [native_run]
  refine .inr ⟨rfl, .literal l, s, ?_, ?_, ?_, rfl,
    fun _ h => absurd h.symm (Option.some_ne_none _)⟩
  · exact .builtin (by rw [Flat.Program.native?, hb]; exact hnative) hl
  · rw [hresult, ← hscalar]
    exact .literal
  · rw [hcells]
    cases m <;> rfl

/-- The dispatcher leaves what the body of the tag of the closure gives. -/
theorem reaches_dispatcher (h : AnswersBelow P takes p options n) (himpl : Implements p options P)
    {tag : Nat} {name : DefName} {w : Value} {captured : List (String × Value)} {σ τ : Ty}
    (hname : P.closures.bodies[tag]? = some name) (hw : Inhabits P takes w σ)
    (hclosure : Inhabits P takes (.closure tag captured) (.function σ τ)) (s : State) {fuel : Nat}
    (hfuel : fuel ≤ n) : (Machine.call p fuel (.ofName options.nspace Flat.dispatcher)
      (pushCells s (cells (.tuple [w, .closure tag captured])))).Reaches
        (Answer P takes τ none (Runs P name (.tuple [w, .compound captured])) s) := by
  obtain ⟨hnative, is, hcode, his⟩ := himpl.dispatcher
  rw [Pipeline.dispatcher_eq] at hcode
  cases hcode
  rw [Machine.call, hnative, his]
  -- the tag of the closure on top goes into the register
  have hcells : pushCells s (cells (.tuple [w, .closure tag captured])) =
      (pushCells s (cells w)).push .compound
        (.compound (("_", .int (Int32.ofNat tag)) :: fieldSlots captured)) := by
    rw [cells_pair, pushCells_append]
    rfl
  have htop : (pushCells s (cells (.tuple [w, .closure tag captured]))).stack .compound =
      .compound (("_", .int (Int32.ofNat tag)) :: fieldSlots captured) ::
        (pushCells s (cells w)).stack .compound := by
    rw [hcells]
    exact State.stack_update _ _ _ _
  have hload := Machine.apply_storeTag htop (n := Int32.ofNat tag) (by rw [Keyed.find?, if_pos rfl])
  cases fuel with
  | zero => exact .inl (by simp only [Machine.run])
  | succ fuel =>
    simp only [Machine.run, hload]
    rw [setScore_pushCells]
    -- only the guard of that tag fires, and its body gives what is claimed
    obtain ⟨before, after, hguards, hbefore, hafter⟩ :=
      Pipeline.exists_guards options himpl.tags hname
    have hbody : Gives P takes name (cells (.tuple [w, .closure tag captured])) τ
        (some (Int32.ofNat tag)) (Runs P name (.tuple [w, .compound captured])) := by
      generalize hty : Ty.function σ τ = ty at hclosure
      cases hclosure with
      | closure hcaptures hp hbody hb hcaptured =>
        cases hty
        obtain ⟨name', hname', hf⟩ := hbody
        obtain rfl : name = name' := Option.some.inj (hname.symm.trans hname')
        exact .body hname hcaptures hp hf hb hw hcaptured
    rw [hguards]
    refine (Machine.reaches_guarded (g := (tag, .ofName options.nspace name)) ?_ hbefore hafter
      (fun fuel' hlt => h hbody (s.setScore .result (Int32.ofNat tag)) fuel' (by omega)) ?_).mono ?_
    · exact (rest_pushCells _ (s.setScore .result (Int32.ofNat tag))).1.symm
    · rintro _ ⟨r, t, -, -, rfl, -, hrestore⟩
      exact (rest_pushCells _ t).1.trans (hrestore _ rfl)
    · rintro _ ⟨r, t, hr, hτ, rfl, ht, -⟩
      exact ⟨r, t, hr, hτ, rfl, ht, fun _ h => absurd h.symm (Option.some_ne_none _)⟩

/-- Calls leave what they are known to give, whatever the fuel. By induction on the bound: what a
call does inside has less fuel. -/
theorem answersBelow (hP : P.WellTyped takes) (himpl : Implements p options P) (n : Nat) :
    AnswersBelow P takes p options n := by
  induction n with
  | zero => exact fun _ _ _ hfuel => absurd hfuel (Nat.not_lt_zero _)
  | succ n ih =>
    intro name as τ restore R hgives s fuel hfuel
    replace hfuel : fuel ≤ n := Nat.le_of_lt_succ hfuel
    cases hgives with
    | function hf hfun hw =>
      obtain ⟨hweight, hnative, is, hcode, his⟩ := himpl.function hf
      rw [Machine.call, hnative, his]
      exact reaches_code ih hcode hweight (functionPre_of_wellTyped hP hf hfun hw hweight) s hfuel
    | builtin hb hw => exact reaches_builtin himpl hb hw s fuel
    | body _ hcaptures hp hf hb hw hcaptured =>
      obtain ⟨hweight, hnative, is, hcode, his⟩ := himpl.function hf
      rw [Machine.call, hnative, his]
      exact reaches_code ih hcode hweight
        (functionPre_of_body hP hcaptures hp hf hb hw hcaptured hweight) s hfuel
    | dispatcher hname hw hclosure => exact reaches_dispatcher ih himpl hname hw hclosure s hfuel

/-- **Emitted code computes by value.** Let a machine have the code of a well-typed flat program. A
call of a definition on the slots of a value of its parameter type runs out of fuel or ends, without
another failure; and if it ends, the slots of a value that the definition gives on that value stand
in place of those of the argument, and the slots below are as they were. -/
theorem call_runs (hP : P.WellTyped takes) (himpl : Implements p options P) {name : DefName}
    {σ τ : Ty} (htakes : takes name σ τ) {w : Value} (hw : Inhabits P takes w σ) (s : State)
    (fuel : Nat) :
    (Machine.call p fuel (.ofName options.nspace name) (pushCells s (cells w))).Reaches fun s' =>
      ∃ r t, Runs P name w r ∧ Inhabits P takes r τ ∧ s' = pushCells t (cells r) ∧
        t.stack = s.stack := by
  obtain ⟨restore, hgives⟩ := exists_gives hP htakes hw
  refine (answersBelow hP himpl (fuel + 1) hgives s fuel (Nat.lt_succ_self fuel)).mono ?_
  rintro _ ⟨r, t, hr, hτ, rfl, ht, -⟩
  exact ⟨r, t, hr, hτ, rfl, ht⟩

end

end Stagecraft.Emit
