import Stagecraft.Proofs.Aggregates
import Stagecraft.Proofs.ClauseCalls
import Stagecraft.Proofs.DistinctLocations
import Stagecraft.Proofs.RunTimeAgreement

/-!
# Conditionals at run time

The code of a conditional evaluates the condition, moves the byte into the register, copies the
variables in scope and then calls the two clauses one after the other, each under its condition on
the register. A run of that which gets through has called one clause only: the first clause puts a
positive score back into the register, and copying variables leaves it alone (`clauseCalls_spec`,
`exists_passing`). The calls that are made are read off the run (`entries`).

To say that of the whole code, no call within the condition may be to a clause of this conditional.
The clauses are functions that nothing else calls, and distinct names are at distinct locations. So
for a conditional anywhere in a build, `calls_one_clause` counts the calls of either clause.
-/

namespace Stagecraft.Machine

open Target (PerKind Nbt Location Instruction ScoreRange)

/-! ## Calls of an activation -/

/-- The calls that the instructions of one activation make, in order: where they go and what state
the callee is entered in. What a callee calls is not among them. -/
def entries (p : Program) (fuel : Nat) (is : List Instruction) (s : State) :
    List (Location × State) :=
  match fuel, is with
  | _fuel, [] => []
  | 0, _ :: _ => []
  | fuel + 1, .ifScore negated r range body :: rest =>
    entries p fuel (if range.contains (s.score r) != negated then body :: rest else rest) s
  | fuel + 1, .call location :: rest =>
    match (call p fuel location s).error with
    | some _ => [(location, s)]
    | none => (location, s) ::
        entries p (call p fuel location s).fuel rest (call p fuel location s).state
  | fuel + 1, i :: rest =>
    match s.apply i with
    | .ok s => entries p fuel rest s
    | .error _ => []
termination_by fuel
decreasing_by
  · exact Nat.lt_succ_self fuel
  · exact Nat.lt_succ_of_le (fuel_call_le p fuel location s)
  · exact Nat.lt_succ_self fuel

/-- These are the calls that `activation` lists by their locations. -/
theorem map_fst_entries (p : Program) (fuel : Nat) (is : List Instruction) (s : State) :
    (entries p fuel is s).map (·.1) = (activation p fuel is s).2 := by
  fun_induction activation p fuel is s with
  | case1 s fuel => rw [entries]; rfl
  | case2 => rw [entries]; rfl
  | case3 s fuel negated r range body rest ih =>
    rw [entries]
    simpa only [dite_eq_ite] using ih
  | case4 s fuel location rest e he => rw [entries, he]; rfl
  | case5 s fuel location rest hnone o calls hact ih =>
    rw [entries, hnone]
    rw [hact] at ih
    exact congrArg (location :: ·) ih
  | case6 s fuel i rest hif hcall s' hs ih =>
    rw [← ih]
    cases i with
    | ifScore => exact absurd rfl (hif _ _ _ _)
    | call => exact absurd rfl (hcall _)
    | _ => simp only [entries, hs]
  | case7 s fuel i rest hif hcall e he =>
    cases i with
    | ifScore => exact absurd rfl (hif _ _ _ _)
    | call => exact absurd rfl (hcall _)
    | _ => simp only [entries, he, List.map_nil]

/-- Instructions that go through make their calls before what comes after them does. -/
theorem entries_append {p : Program} {fuel : Nat} {is : List Instruction} {s : State}
    (h : (run p fuel is s).error = none) (js : List Instruction) :
    entries p fuel (is ++ js) s = entries p fuel is s ++
      entries p (run p fuel is s).fuel js (run p fuel is s).state := by
  fun_induction entries p fuel is s with
  | case1 s fuel => rw [List.nil_append, List.nil_append, run]
  | case2 => simp [run] at h
  | case3 s fuel negated r range body rest ih =>
    rw [run] at h ⊢
    rw [List.cons_append, entries]
    simp only [dite_eq_ite] at ih
    rw [← ih h]
    split <;> rfl
  | case4 s fuel location rest e he =>
    rw [run_call, he] at h
    simp [he] at h
  | case5 s fuel location rest hnone ih =>
    rw [run_call, hnone] at h ⊢
    rw [List.cons_append, entries, hnone]
    exact congrArg _ (ih h)
  | case6 s fuel i rest hif hcall s' hs ih =>
    cases i with
    | ifScore => exact absurd rfl (hif _ _ _ _)
    | call => exact absurd rfl (hcall _)
    | _ =>
      simp only [run, hs] at h ⊢
      simpa only [List.cons_append, entries, hs] using ih h
  | case7 s fuel i rest hif hcall e he =>
    cases i with
    | ifScore => exact absurd rfl (hif _ _ _ _)
    | call => exact absurd rfl (hcall _)
    | _ => simp [run, he] at h

/-- A call goes where an instruction says. -/
theorem exists_called_of_mem_entries {p : Program} {fuel : Nat} {is : List Instruction} {s : State}
    {e : Location × State} (h : e ∈ entries p fuel is s) : ∃ i ∈ is, e.1 ∈ i.called := by
  fun_induction entries p fuel is s with
  | case1 | case2 | case7 => cases h
  | case3 s fuel negated r range body rest ih =>
    simp only [dite_eq_ite] at ih
    obtain ⟨i, hi, he⟩ := ih h
    split at hi
    · rcases List.mem_cons.1 hi with rfl | hi
      · exact ⟨_, List.mem_cons_self, he⟩
      · exact ⟨i, List.mem_cons_of_mem _ hi, he⟩
    · exact ⟨i, List.mem_cons_of_mem _ hi, he⟩
  | case4 s fuel location rest e' he =>
    rw [List.mem_singleton] at h
    exact ⟨_, List.mem_cons_self, h ▸ List.mem_singleton_self _⟩
  | case5 s fuel location rest hnone ih =>
    rcases List.mem_cons.1 h with rfl | h
    · exact ⟨_, List.mem_cons_self, List.mem_singleton_self _⟩
    · obtain ⟨i, hi, he⟩ := ih h
      exact ⟨i, List.mem_cons_of_mem _ hi, he⟩
  | case6 s fuel i rest hif hcall s' hs ih =>
    obtain ⟨j, hj, he⟩ := ih h
    exact ⟨j, List.mem_cons_of_mem _ hj, he⟩

/-- A condition that has been tested is out of the way. -/
theorem exists_fuel_ifScore {p : Program} {fuel : Nat} {range : ScoreRange} {i : Instruction}
    {rest : List Instruction} {s : State}
    (h : (run p fuel (.ifScore false .result range i :: rest) s).error = none) :
    ∃ fuel', run p fuel (.ifScore false .result range i :: rest) s =
        run p fuel' (if range.contains s.result then i :: rest else rest) s ∧
      entries p fuel (.ifScore false .result range i :: rest) s =
        entries p fuel' (if range.contains s.result then i :: rest else rest) s := by
  cases fuel with
  | zero => simp [run] at h
  | succ fuel =>
    refine ⟨fuel, ?_, ?_⟩
    · rw [run, Bool.bne_false]
      rfl
    · rw [entries, Bool.bne_false]
      rfl

/-- A call that has gone through is made in the state that it is reached in, and what comes after it
goes on from what it leaves. -/
theorem exists_fuel_call {p : Program} {fuel : Nat} {l : Location} {rest : List Instruction}
    {s : State} {Q : State → Prop} (hcall : ∀ fuel, (call p fuel l s).Reaches Q)
    (h : (run p fuel (.call l :: rest) s).error = none) :
    ∃ fuel' t, Q t ∧ run p fuel (.call l :: rest) s = run p fuel' rest t ∧
      entries p fuel (.call l :: rest) s = (l, s) :: entries p fuel' rest t := by
  cases fuel with
  | zero => simp [run] at h
  | succ fuel =>
    rw [run_call] at h ⊢
    rw [entries]
    obtain hlack | ⟨hnone, hQ⟩ := hcall fuel
    · rw [hlack] at h
      simp [hlack] at h
    · rw [hnone]
      exact ⟨_, _, hQ, rfl, rfl⟩

/-- A run that gets through goes through each part of its code, and in the first one to a state that
satisfies the condition. -/
theorem exists_fuel_leads {p : Program} {c : Calls} {base : PerKind (List Nbt)}
    (hc : ∀ n l s Q, c.lead l s Q → ∀ fuel < n,
      (call p fuel l (s.above base)).Reaches (Over base Q))
    {is js : List Instruction} {s : State} {Q : State → Prop} (hleads : leads c is s Q) {fuel : Nat}
    (h : (run p fuel (is ++ js) (s.above base)).error = none) :
    ∃ fuel' t, Q t ∧ (run p fuel is (s.above base)).error = none ∧
      (run p fuel is (s.above base)).state = t.above base ∧
      run p fuel (is ++ js) (s.above base) = run p fuel' js (t.above base) ∧
      entries p fuel (is ++ js) (s.above base) =
        entries p fuel is (s.above base) ++ entries p fuel' js (t.above base) := by
  rw [run_append] at h ⊢
  obtain hlack | ⟨hnone, t, hQ, ht⟩ := reaches_of_leads (hc fuel) hleads (Nat.le_refl fuel)
  · rw [hlack] at h
    simp [hlack] at h
  · rw [entries_append hnone, hnone, ht]
    exact ⟨_, t, hQ, rfl, rfl, rfl, rfl⟩

end Stagecraft.Machine

namespace Stagecraft.Emit

open Target (StackKind PerKind Nbt Location Instruction)
open Machine (State entries leads run)
open Flat (Ty Term Value Inhabits AllInhabit HasType Runs)
open Emit.Frame (held)

/-! ## The two calls -/

/-- The calls of the clauses of a conditional, each under its condition. -/
def clauseCalls (options : Options) (thenName elseName : DefName) : List Instruction :=
  [.ifScore false .result (.atLeast 1) (.call (.ofName options.nspace thenName)),
    .ifScore false .result (.atMost 0) (.call (.ofName options.nspace elseName))]

section

variable {P : Flat.Program} {takes : DefName → Ty → Ty → Prop} {p : Machine.Program}
  {options : Options}

/-- The calls of the clauses on the slots of an argument, if they go through: one of them is made,
the register tells which one, and what it gives stands in place of the argument. The first clause
puts a positive score back into the register, so the second condition fails after it. -/
theorem clauseCalls_spec (hanswers : ∀ n, AnswersBelow P takes p options n)
    {thenName elseName : DefName} {as : Cells} {τ : Ty} {R R' : Value → Prop}
    (hthen : Gives P takes thenName as τ (some 1) R) (helse : Gives P takes elseName as τ none R')
    {u : State} {fuel : Nat}
    (hrun : (run p fuel (clauseCalls options thenName elseName) (pushCells u as)).error = none) :
    entries p fuel (clauseCalls options thenName elseName) (pushCells u as) =
        [(.ofName options.nspace (if 1 ≤ u.result then thenName else elseName), pushCells u as)] ∧
      ∃ r t, Inhabits P takes r τ ∧ t.stack = u.stack ∧
        (run p fuel (clauseCalls options thenName elseName) (pushCells u as)).state =
          pushCells t (cells r) := by
  have hresult : (pushCells u as).result = u.result := (rest_pushCells as u).1
  have hcall : ∀ {name restore R}, Gives P takes name as τ restore R → ∀ fuel,
      (Machine.call p fuel (.ofName options.nspace name) (pushCells u as)).Reaches
        (Answer P takes τ restore R u) :=
    fun h fuel => hanswers (fuel + 1) h u fuel (Nat.lt_succ_self fuel)
  unfold clauseCalls at hrun ⊢
  obtain ⟨fuel₁, hrun₁, hentries₁⟩ := Machine.exists_fuel_ifScore hrun
  rw [hrun₁] at hrun ⊢
  rw [hentries₁]
  rw [contains_atLeast_one, hresult] at hrun ⊢
  by_cases hpos : 1 ≤ u.result
  · rw [if_pos hpos]
    simp only [hpos, decide_true, if_true] at hrun ⊢
    obtain ⟨fuel₂, _, ⟨r, t, -, hr, rfl, ht, hrestore⟩, hrun₂, hentries₂⟩ :=
      Machine.exists_fuel_call (hcall hthen) hrun
    rw [hrun₂] at hrun ⊢
    rw [hentries₂]
    obtain ⟨fuel₃, hrun₃, hentries₃⟩ := Machine.exists_fuel_ifScore hrun
    -- the clause has put a positive score back, whatever it did to the register before
    have hone : ¬ (pushCells t (cells r)).result < 1 := by
      rw [(rest_pushCells _ t).1, hrestore 1 rfl]
      decide
    rw [contains_atMost_zero, decide_eq_false hone] at hrun₃ hentries₃
    rw [hrun₃, hentries₃]
    rw [if_neg Bool.false_ne_true, run, entries]
    exact ⟨rfl, r, t, hr, ht, rfl⟩
  · rw [if_neg hpos]
    simp only [hpos, decide_false, Bool.false_eq_true, if_false] at hrun ⊢
    obtain ⟨fuel₂, hrun₂, hentries₂⟩ := Machine.exists_fuel_ifScore hrun
    rw [contains_atMost_zero, hresult, decide_eq_true (Int32.not_le.1 hpos)] at hrun₂ hentries₂
    rw [hrun₂] at hrun ⊢
    rw [hentries₂]
    simp only [if_true] at hrun ⊢
    obtain ⟨fuel₃, _, ⟨r, t, -, hr, rfl, ht, -⟩, hrun₃, hentries₃⟩ :=
      Machine.exists_fuel_call (hcall helse) hrun
    rw [hrun₃, hentries₃, run, entries]
    exact ⟨rfl, r, t, hr, ht, rfl⟩

end

/-! ## Emission -/

theorem run_bind_ok {α β : Type} {x : EmitM α} {f : α → EmitM β} {o o'' : Output} {b : β} :
    (x >>= f) o = .ok (b, o'') ↔ ∃ a o', x o = .ok (a, o') ∧ f a o' = .ok (b, o'') := by
  change x o >>= (fun r => f r.1 r.2) = .ok (b, o'') ↔ _
  rw [Except.bind_ok, Prod.exists]

/-- Code that leads from its precondition to any condition and calls nothing but what it may. -/
theorem exists_code {callees : Callees} {options : Options} {named : DefName → Prop}
    {x : EmitM Unit} {pre : Pre Unit} (hx : Emits (callees.calls options) x pre)
    (hcalls : Alike (fun is _ => CallOnly options.nspace named is) x x) {o o' : Output}
    (h : x o = .ok ((), o')) : ∃ is, o'.instructions.toList = o.instructions.toList ++ is ∧
      CallOnly options.nspace named is ∧
      ∀ s Post, pre o.slots s Post → leads (callees.calls options) is s (Post () o'.slots) := by
  obtain ⟨is, his, hleads⟩ := hx o () o' h
  have hout := hcalls (rfl : o.slots = o.slots)
  rw [h] at hout
  cases hout with
  | ok _ left _ related =>
    obtain rfl := List.append_cancel_left (his.symm.trans left)
    exact ⟨is, his, related, hleads⟩

/-- Move what the condition has left into the register, and put the argument of the clauses in its
place. -/
def passArgument (options : Options) (a : Term) : EmitM Unit := do
  emit (.storeScore .result (.slot .byte (-1)))
  drop options .byte []
  term options a

/-- Make the model say what the callee leaves. -/
def returned (ks : List StackKind) (ty : Ty) : EmitM Unit := do
  forget ks
  follow (·.pushAll ty.erase)

theorem returned_ok {ks : List StackKind} {ty : Ty} {o o' : Output}
    (h : returned ks ty o = .ok ((), o')) : o'.instructions = o.instructions ∧
      ∀ {as rs : Cells} {F : Frame}, o.slots.stack = (held .free as ++ F).uses →
        as.map (·.1) = ks → rs.map (·.1) = ty.erase →
          o'.slots.stack = (held .free rs ++ F).uses := by
  have hnothing : Piecewise fun is _ => is = [] :=
    ⟨rfl, fun h h' => List.append_eq_nil_iff.2 ⟨h, h'⟩⟩
  have halike : Alike (fun is _ => is = []) (returned ks ty) (returned ks ty) :=
    hnothing.seq (hnothing.tryFollow _) fun _ => hnothing.follow _
  have hout := halike (rfl : o.slots = o.slots)
  rw [h] at hout
  have hemits : Emits (Callees.unknown.calls ⟨"", false⟩) (returned ks ty) _ :=
    emits_returned _ ks ty
  obtain ⟨is, his, hleads⟩ := hemits o () o' h
  cases hout with
  | ok _ left _ related =>
    obtain rfl := List.append_cancel_left (his.symm.trans left)
    subst related
    refine ⟨Array.toList_inj.1 (his.trans (List.append_nil _)), fun {as rs F} huses has hrs => ?_⟩
    obtain ⟨x, hx⟩ := PerKind.exists_get (held .free rs ++ F).values
    exact hleads { State.empty with byKind := x } (fun _ slots _ => slots.stack = _)
      ⟨as, rs, F, huses, has, hrs, funext hx, fun _ hF => hF.uses⟩

/-- The code of a conditional is that of its condition, then the part that passes the argument and
then the two calls. -/
theorem branch_ok {options : Options} {ty : Ty} {c a : Term} {thenName elseName : DefName}
    {o o' : Output} (h : term options (.branch ty c a thenName elseName) o = .ok ((), o')) :
    ∃ o₁ o₂, term options c o = .ok ((), o₁) ∧ passArgument options a o₁ = .ok ((), o₂) ∧
      o'.instructions.toList =
        o₂.instructions.toList ++ clauseCalls options thenName elseName ∧
      ∀ {as rs : Cells} {F : Frame}, o₂.slots.stack = (held .free as ++ F).uses →
        as.map (·.1) = a.ty.erase → rs.map (·.1) = ty.erase →
          o'.slots.stack = (held .free rs ++ F).uses := by
  rw [term] at h
  obtain ⟨_, o₁, hc, h⟩ := run_bind_ok.1 h
  obtain ⟨_, o₂, hstore, h⟩ := run_bind_ok.1 h
  obtain ⟨_, o₃, hdrop, h⟩ := run_bind_ok.1 h
  obtain ⟨_, o₄, ha, h⟩ := run_bind_ok.1 h
  obtain ⟨_, o₅, hjump, h⟩ := run_bind_ok.1 h
  cases hjump
  obtain ⟨hinstructions, hslots⟩ := returned_ok h
  refine ⟨o₁, o₄, hc, ?_, ?_, hslots⟩
  · exact run_bind_ok.2 ⟨_, _, hstore, run_bind_ok.2 ⟨_, _, hdrop, ha⟩⟩
  · rw [hinstructions]
    simp [clauseCalls]

section

variable {callees : Callees} (options : Options)

/-- After the condition has left a number, the register holds it, and the cells of the argument are
on top of the frame instead. An argument without calls, conditionals and tests in it keeps the
register. -/
theorem emits_passArgument (a : Term) :
    Emits (callees.calls options) (passArgument options a) fun slots s Post => ∃ F ρ v x,
      Matches (held .free [(.byte, v)] ++ F) slots s ∧ State.scoreOf? v = some x ∧
        F.Represents ρ ∧ F.Small (1 + termWeight a) ∧ termPre callees a ρ fun as =>
          ∀ slots' s', Matches (held .free as ++ F) slots' s' → (isQuiet a → s'.result = x) →
            Post () slots' s' := by
  refine ((Emits.emit _).bind fun _ => (emits_drop options .byte []).bind fun _ =>
    emits_term options a).mono ?_
  rintro slots s Post ⟨F, ρ, v, x, hF, hx, hρ, hsmall, h⟩
  have hread : s.read (.slot .byte (-1)) = .ok v :=
    read_slot_cut (A := Frame.empty) hF.values (by decide) rfl
  refine Machine.leadsOne_of_apply rfl (State.apply_storeScore hread hx) ?_
  refine ⟨Frame.empty, .free, v, F, hF.of_stack (stack_setScore s _ x), rfl, by decide,
    fun slots₁ s₁ hF₁ hs₁ => ?_⟩
  refine ⟨F, ρ, hF₁, hρ, hsmall.mono fun k => by omega, termPre_mono ?_ h⟩
  intro as _ h slots₂ s₂ hF₂ hs₂
  refine h slots₂ s₂ hF₂ fun hq => ?_
  change s₂.score .result = x
  rw [hs₂ hq, hs₁, score_setScore_self]

end

/-! ## Runs -/

section

variable (P : Flat.Program) (takes : DefName → Ty → Ty → Prop) (p : Machine.Program)
  (nspace : String)

/-- What a run of the code of a conditional does that gets through, from a state that the slots of a
frame are on top of. The condition leaves a byte there. Among the calls that the code makes there is
one of the clause that the byte selects, and it is the last one, and there is none of the other
clause. When the clause is entered, the values of the variables in scope are on top of the frame, in
the order of their levels. In the end there is a value of the type of the conditional instead. -/
def RunsClause (ty : Ty) (thenName elseName : DefName) (ρ : List Value) (F : Frame) (slots : Slots)
    (condition rest : List Instruction) (base : PerKind (List Nbt)) (fuel : Nat) (s : State) :
    Prop :=
  ∃ (byte : Int8) (tested entered ended : State) (r : Value),
    (run p fuel condition (s.above base)).state = tested.above base ∧
    tested.stack = (held .free [(.byte, .byte byte)] ++ F).values ∧
    entries p fuel (condition ++ rest) (s.above base) =
      entries p fuel condition (s.above base) ++
        [(.ofName nspace (if 1 ≤ byte then thenName else elseName), entered.above base)] ∧
    (entries p fuel (condition ++ rest) (s.above base)).countP
      (·.1 = .ofName nspace thenName) = (if 1 ≤ byte then 1 else 0) ∧
    (entries p fuel (condition ++ rest) (s.above base)).countP
      (·.1 = .ofName nspace elseName) = (if 1 ≤ byte then 0 else 1) ∧
    entered.stack = (held .free (cellsAll ρ) ++ F).values ∧
    (run p fuel (condition ++ rest) (s.above base)).state = ended.above base ∧
    Inhabits P takes r ty ∧ Matches (held .free (cells r) ++ F) slots ended

end

section

variable {P : Flat.Program} {takes : DefName → Ty → Ty → Prop} {p : Machine.Program}
  {options : Options}

/-- Where an instruction list calls nothing, a run of it enters nothing. -/
theorem entries_eq_nil {is : List Instruction} (h : CallOnly options.nspace (fun _ => False) is)
    (fuel : Nat) (s : State) : entries p fuel is s = [] :=
  List.eq_nil_iff_forall_not_mem.2 fun _ he => by
    obtain ⟨i, hi, hcalled⟩ := Machine.exists_called_of_mem_entries he
    obtain ⟨_, hfalse, -⟩ := h i hi _ hcalled
    exact hfalse

/-- Where no instruction calls a location, no call of a run goes there. -/
theorem countP_entries {named : DefName → Prop} {is : List Instruction}
    (h : CallOnly options.nspace named is) {l : Location}
    (hl : ∀ name, named name → Location.ofName options.nspace name ≠ l) (fuel : Nat) (s : State) :
    (entries p fuel is s).countP (·.1 = l) = 0 := by
  refine List.countP_eq_zero.2 fun e he heq => ?_
  obtain ⟨i, hi, hcalled⟩ := Machine.exists_called_of_mem_entries he
  obtain ⟨name, hname, hlocation⟩ := h i hi _ hcalled
  exact hl name hname (hlocation.symm.trans (of_decide_eq_true heq))

/-- The code of a term calls what the term does. -/
theorem alike_term (t : Term) {named : DefName → Prop} (h : ∀ c ∈ callSites t, named c.name) :
    Alike (fun is _ => CallOnly options.nspace named is) (term options t) (term options t) := by
  have halike := (relates_callOnly options named).term t h fun _ _ => trivial
  rwa [Term.mapTags_id] at halike

theorem alike_passArgument {a : Term} (h : callSites a = []) :
    Alike (fun is _ => CallOnly options.nspace (fun _ => False) is) (passArgument options a)
      (passArgument options a) := by
  have hrelates := relates_callOnly options fun _ => False
  refine hrelates.seq (hrelates.emit rfl) fun _ =>
    hrelates.seq (hrelates.removeAt _ _ _) fun _ => ?_
  exact alike_term a fun c hc => by
    rw [h] at hc
    cases hc

section

variable {Γ : List Ty} {ρ : List Value} {bs : Bound} {F : Frame} {o o' : Output}
  (hρ : AllInhabit P takes ρ Γ) (hbs : Carries 0 ρ bs) (hscope : F.Represents bs)

include hρ hbs hscope

/-- Code for a condition leaves a byte on top of the frame. -/
theorem exists_condition (hP : P.WellTyped takes) {c : Term}
    (hc : HasType P takes Γ c (.scalar .bool))
    (hcode : term options c o = .ok ((), o')) (hsmall : F.Small (termWeight c)) :
    ∃ is, o'.instructions.toList = o.instructions.toList ++ is ∧
      CallOnly options.nspace (fun name => ∃ site ∈ callSites c, site.name = name) is ∧
      ∀ s, Matches F o.slots s → leads ((runCallees P takes).calls options) is s fun s' =>
        ∃ byte, Matches (held .free [(.byte, .byte byte)] ++ F) o'.slots s' := by
  have hemits : Emits ((runCallees P takes).calls options) (term options c) _ :=
    emits_term options c
  have hcalls : Alike (fun is _ => CallOnly options.nspace
      (fun name => ∃ site ∈ callSites c, site.name = name) is) (term options c) (term options c) :=
    alike_term c fun site hsite => ⟨site, hsite, rfl⟩
  obtain ⟨is, his, honly, hleads⟩ := exists_code hemits hcalls hcode
  have hweight : termWeight c < 2 ^ 31 := Nat.lt_of_le_of_lt (Nat.le_add_left _ _) (hsmall .byte)
  refine ⟨is, his, honly, fun s hF => hleads s (fun _ slots s' =>
    ∃ byte, Matches (held .free [(.byte, .byte byte)] ++ F) slots s') ?_⟩
  refine ⟨F, bs, hF, hscope, hsmall, (meets_of_hasType hP hc).pre hρ hbs hweight ?_⟩
  intro w _ hw slots s' hF' _
  obtain ⟨l, rfl, hl⟩ := exists_of_inhabits_scalar hw
  cases l <;> cases hl
  exact ⟨_, hF'⟩

/-- The part that passes the argument of a clause puts the values of all variables in place of the
byte, and the byte in the register. -/
theorem exists_passing {S : Flat.Bindings} (hΓ : Γ = S.types)
    (hcode : passArgument options S.argument o = .ok ((), o'))
    (hsmall : F.Small (1 + termWeight S.argument)) :
    ∃ is, o'.instructions.toList = o.instructions.toList ++ is ∧
      CallOnly options.nspace (fun _ => False) is ∧
      ∀ s byte, Matches (held .free [(.byte, .byte byte)] ++ F) o.slots s →
        leads ((runCallees P takes).calls options) is s fun s' =>
          Matches (held .free (cellsAll ρ) ++ F) o'.slots s' ∧ s'.result = byte.toInt32 := by
  subst hΓ
  obtain ⟨is, his, honly, hleads⟩ := exists_code (emits_passArgument options S.argument)
    (alike_passArgument (Flat.callSites_argument S)) hcode
  have hweight : termWeight S.argument < 2 ^ 31 := by
    have h := hsmall .byte
    omega
  refine ⟨is, his, honly, fun s byte hF => hleads s (fun _ slots s' =>
    Matches (held .free (cellsAll ρ) ++ F) slots s' ∧ s'.result = byte.toInt32) ?_⟩
  refine ⟨F, bs, _, _, hF, rfl, hscope, hsmall, (meets_argument S).pre hρ hbs hweight ?_⟩
  intro w hw hσ slots s' hF' hresult
  obtain rfl := Flat.Bindings.evaluates_argument hw (hρ.length_eq.trans (Flat.length_types S))
  rw [cells] at hF'
  exact ⟨hF', hresult (isQuiet_argument S)⟩

end

theorem runsClause_of_hasType (hP : P.WellTyped takes) (himpl : Implements p options P) {τ σ : Ty}
    {c a : Term} {thenName elseName : DefName} {Γ : List Ty}
    (ht : HasType P takes Γ (.branch τ c a thenName elseName) σ)
    (hclauses : Location.ofName options.nspace thenName ≠ .ofName options.nspace elseName)
    (hcondition : ∀ site ∈ callSites c,
      Location.ofName options.nspace site.name ≠ .ofName options.nspace thenName ∧
      Location.ofName options.nspace site.name ≠ .ofName options.nspace elseName)
    {o o' : Output} (hcode : term options (.branch τ c a thenName elseName) o = .ok ((), o'))
    {ρ : List Value} {bs : Bound} {F : Frame} {s : State} (hρ : AllInhabit P takes ρ Γ)
    (hbs : Carries 0 ρ bs) (hF : Matches F o.slots s) (hscope : F.Represents bs)
    (hsmall : F.Small (termWeight (.branch τ c a thenName elseName))) :
    ∃ condition rest, o'.instructions.toList = o.instructions.toList ++ (condition ++ rest) ∧
      ∀ base fuel, (run p fuel (condition ++ rest) (s.above base)).error = none →
        RunsClause P takes p options.nspace τ thenName elseName ρ F o'.slots condition rest base
          fuel s := by
  cases ht with
  | @branch S _ _ th el _ _ hc hthen hth helse hel =>
  obtain ⟨o₁, o₂, hc', hpass, hcalls, hreturned⟩ := branch_ok hcode
  obtain ⟨condition, hi₁, honly₁, hleads₁⟩ := exists_condition hρ hbs hscope hP hc hc'
    (hsmall.mono fun k => by rw [termWeight]; omega)
  obtain ⟨passing, hi₂, honly₂, hleads₂⟩ := exists_passing hρ hbs hscope rfl hpass
    (hsmall.mono fun k => by rw [termWeight]; omega)
  refine ⟨condition, passing ++ clauseCalls options thenName elseName, ?_, fun base fuel hrun => ?_⟩
  · rw [hcalls, hi₂, hi₁]
    simp only [List.append_assoc]
  have hreaches : ∀ n l s Q, ((runCallees P takes).calls options).lead l s Q → ∀ fuel < n,
      (Machine.call p fuel l (s.above base)).Reaches (Machine.Over base Q) :=
    fun n l s Q => reaches_call (answersBelow hP himpl n)
  obtain ⟨fuel₁, tested, ⟨byte, htested⟩, hnone₁, hstate₁, hrun₁, hentries₁⟩ :=
    Machine.exists_fuel_leads hreaches (hleads₁ s hF) hrun
  rw [hrun₁] at hrun
  obtain ⟨fuel₂, entered, ⟨hentered, hresult⟩, -, -, hrun₂, hentries₂⟩ :=
    Machine.exists_fuel_leads hreaches (hleads₂ tested byte htested) hrun
  rw [hrun₂] at hrun
  rw [entries_eq_nil honly₂, List.nil_append] at hentries₂
  have hargs : Inhabits P takes (.tuple ρ) (.tuple S.types) := .tuple hρ
  obtain ⟨u, hu, hbelow, hkept⟩ := exists_eq_pushCells hentered.values base
  rw [hu, ← cells] at hrun
  obtain ⟨hcall, r, t, hr, ht, hstate⟩ := clauseCalls_spec (answersBelow hP himpl)
    (.clause hthen hth hargs) (.clause helse hel hargs) hrun
  rw [cells, ← hu] at hcall hstate
  obtain ⟨ended, hended, hstack, -⟩ := exists_eq_above (ht ▸ hbelow) (cells r)
  have hentries : entries p fuel (condition ++ (passing ++ clauseCalls options thenName elseName))
      (s.above base) = entries p fuel condition (s.above base) ++
        [(.ofName options.nspace (if 1 ≤ byte then thenName else elseName),
          entered.above base)] := by
    rw [hentries₁, hentries₂, hcall]
    have hselects : (1 ≤ u.result) = (1 ≤ byte) := by
      rw [hkept, hresult, Int32.le_iff_toInt_le, Int8.le_iff_toInt_le, Int8.toInt_toInt32]
      rfl
    simp only [hselects]
  refine ⟨byte, tested, entered, ended, r, hstate₁, htested.values, hentries, ?_, ?_,
    hentered.values, ?_, hr, ?_, hstack⟩
  · rw [hentries, List.countP_append, countP_entries honly₁]
    · split_ifs <;> simp [hclauses.symm]
    · rintro _ ⟨site, hsite, rfl⟩
      exact (hcondition site hsite).1
  · rw [hentries, List.countP_append, countP_entries honly₁]
    · split_ifs <;> simp [hclauses]
    · rintro _ ⟨site, hsite, rfl⟩
      exact (hcondition site hsite).2
  · rw [hrun₁, hrun₂, hstate, hended]
  · refine hreturned hentered.uses ?_ (kinds_cells hr)
    have hkinds := kinds_cells hargs
    rw [cells] at hkinds
    rw [hkinds, S.ty_argument]

end

end Stagecraft.Emit

/-! ## Builds -/

namespace Stagecraft.Pipeline

open Emit (Output Slots term termWeight Frame Matches Bound Carries RunsClause)
open Flat (Term Ty Value Inhabits Takes)
open Staged (Table)
open Target (StackKind PerKind Nbt Artifact Location)

/-- **A conditional runs one clause, in its own scope.** Let a build be clean, at locations that are
distinct from each other and from those of the native functions, in sizes that 32-bit indices can
count. Let what was staged check, with no other builtins than those of the prelude. Take the code of
a conditional anywhere in a function of the build, and a state that matches the model of the slots
before it, in which every variable in scope holds a value of its type, on top of any other slots.
If the machine that runs the build gets through the code, then whatever byte the condition has left,
the clause that it selects was called once and the other one not at all; it found the values of the
variables in scope on top of the stacks, in the order of their levels; and in the end the slots of a
value of the type of the conditional have been added and nothing else. -/
theorem calls_one_clause {fuel : Nat} {settings : Settings} {natives : Eval.Natives} {table : Table}
    {staged : List Staged.Definition} {failures : Failures} {b : Build}
    (hstaged : residuals? ⟨table, natives, settings.unfoldLimit⟩ fuel table.definitions =
      some (staged, failures))
    (hbuild : build? fuel settings natives table = some b) (hclean : b.isClean = true)
    (hlocations : (b.artifacts.map Artifact.location ++ Machine.Native.all.map fun e =>
      Location.ofName settings.nspace (Staged.preludeName e.1)).Nodup)
    (hchecks : ∀ d ∈ staged, d.Checks (.ofList staged))
    (hbuiltins : (Table.ofList staged).HasPreludeBuiltins)
    (hweights : Flat.areAddressable (programOf staged).definitions)
    (htags : b.closures.size ≤ 2 ^ 32) {f : Flat.Function}
    (hf : .function f ∈ (programOf staged).definitions) {τ : Ty} {c a : Term}
    {thenName elseName : DefName} (hbranch : (Term.branch τ c a thenName elseName).Within f.body)
    {o o' : Output}
    (hcode : term settings.emitOptions (.branch τ c a thenName elseName) o = .ok ((), o'))
    {ρ : List Value} {bs : Bound} {F : Frame} {s : Machine.State}
    (hρ : Inhabits (programOf staged) (Takes (.ofList staged)) (.tuple ρ) a.ty)
    (hbs : Carries 0 ρ bs) (hscope : F.Represents bs) (hF : Matches F o.slots s)
    (hsmall : F.Small (termWeight (.branch τ c a thenName elseName))) :
    ∃ condition rest, o'.instructions.toList = o.instructions.toList ++ (condition ++ rest) ∧
      ∀ base n, (Machine.run (machine settings.nspace b) n (condition ++ rest)
          (s.above base)).error = none →
        RunsClause (programOf staged) (Takes (.ofList staged)) (machine settings.nspace b)
          settings.nspace τ thenName elseName ρ F o'.slots condition rest base n s := by
  obtain ⟨hbuilt, hdefinitions⟩ := isBuildOf_of_build? hstaged hbuild hclean hlocations
  have hnames := hbuilt.nodup_names hbuiltins
  have hdispatcher := hbuilt.function?_dispatcher hbuiltins
  have hall : ∀ d ∈ (Table.ofList staged).definitions, d.Checks (.ofList staged) := by
    rwa [hdefinitions]
  have hwelltyped : (programOf staged).WellTyped (Takes (.ofList staged)) :=
    Flat.wellTyped_of_converted hdispatcher
      (Flat.converted_of_flatten hbuilt.converted hnames .prelude) fun f hf => hall (.function f) hf
  obtain ⟨R, owner, hregular, hhelpers⟩ := Flat.exists_regular hbuilt.converted hnames .prelude
    hdispatcher hall hf
  have happart : ∀ g ∈ R.helpers, ¬ Flat.SourceName (.ofList staged) g.name := by
    intro g hg hsource
    obtain ⟨hg, hfree⟩ := hhelpers g hg
    rcases hsource with hname | hname
    · exact hbuilt.ne_dispatcher hg rfl (congrArg _ hname)
    · rw [hfree] at hname
      cases hname
  -- the conditional is the only one to call its clauses, and names are told apart by locations
  obtain ⟨hne, hsites⟩ := hregular.clauses_apart happart hbranch
  obtain ⟨Δ, σ, htype⟩ := hbranch.exists_hasType hregular.1
  have hparts := htype
  cases hparts with
  | @branch S _ _ th el _ _ hc hthen hth helse hel =>
  have hthenMem := (Flat.Program.mem_of_function? hthen).1
  have helseMem := (Flat.Program.mem_of_function? helse).1
  rw [Flat.Bindings.ty_argument] at hρ
  cases hρ with
  | tuple hρ =>
  refine Emit.runsClause_of_hasType hwelltyped (hbuilt.implements hbuiltins hweights htags) htype
    (fun heq => ?_) (fun site hsite => ?_) hcode hρ hbs hF hscope hsmall
  · have hsame := eq_of_location hbuilt.emitted hbuilt.nodup_emitted hthenMem helseMem rfl rfl heq
    exact hne (congrArg Flat.Definition.name hsame)
  · have hmem : site ∈ Emit.callSites f.body := by
      refine hbranch.sublist_callSites.subset ?_
      rw [Emit.callSites]
      exact List.mem_cons_of_mem _ (List.mem_cons_of_mem _ (List.mem_append_left _ hsite))
    exact ⟨hbuilt.location_ne_of_callSite hbuiltins hf hthenMem hmem (hsites site hsite).1,
      hbuilt.location_ne_of_callSite hbuiltins hf helseMem hmem (hsites site hsite).2⟩

/-- The conditional of `sumTo`. -/
def lastSum : Term :=
  .branch .int (.call (.scalar .bool) (Staged.preludeName "int_lt")
    (.ofTuple [.var .int ⟨"n", 0⟩, .literal .int (.int 1)])) (.ofTuple [.var .int ⟨"n", 0⟩])
    ⟨["main"], "sum_to:0"⟩ ⟨["main"], "sum_to:2"⟩

/-- A variable in a slot. -/
def variableFrame (k : StackKind) (v : Nbt) : Frame := .ofBindings [(0, [(k, v)])]

/-- The variable of `sumTo`, and a number that belongs to no variable on top of it. -/
def sumFrame : Frame := .held .free [(.int, .int 9)] ++ variableFrame .int (.int 2)

/-- The model of `sumFrame`. -/
def sumSlots : Slots := ⟨(PerKind.const []).update .int fun _ => [.free, .bound 0]⟩

/-- A state with `sumFrame` on its stacks. -/
def sumState : Machine.State := (Machine.State.empty.push .int (.int 2)).push .int (.int 9)

theorem calls_one_clause_sums :
    sums.isRunTime = true ∧ build? 0 .standard .prelude sums = some sumsBuild ∧
    sumsBuild.isClean = true ∧ Matches sumFrame sumSlots sumState ∧
    ∃ o', term Settings.standard.emitOptions lastSum ⟨sumSlots, #[]⟩ = .ok ((), o') ∧
    ∃ condition rest, o'.instructions.toList = condition ++ rest ∧
      RunsClause (programOf sums.definitions) (Takes sums) (machine "minecraft" sumsBuild)
        "minecraft" .int ⟨["main"], "sum_to:0"⟩ ⟨["main"], "sum_to:2"⟩ [.literal (.int 2)] sumFrame
        o'.slots condition rest (.const []) 1000 sumState := by
  have hruntime : sums.isRunTime = true := by decide +kernel
  have hb : build? 0 .standard .prelude sums = some sumsBuild := by
    rw [sumsBuild, build?_of_isRunTime 0 .standard .prelude hruntime]
    rfl
  have hclean : sumsBuild.isClean = true := by decide +kernel
  have hstaged : residuals? ⟨sums, .prelude, Settings.standard.unfoldLimit⟩ 0 sums.definitions =
      some (sums.definitions, []) :=
    residuals?_of_isRunTime _ 0 (List.all_eq_true.1 hruntime)
  have htable : Table.ofList sums.definitions = sums := Table.ofList_definitions sums
  have hchecks : ∀ d ∈ sums.definitions, d.Checks (.ofList sums.definitions) := by
    have hdefinitions : sums.definitions = Staged.prelude ++ [.function sumTo] := rfl
    intro d hd
    rw [htable]
    match d with
    | .function f => exact checks_sums f hd
    | .resource r => simp [hdefinitions, Staged.prelude, Staged.preludeFunction] at hd
    | .alias _ => trivial
  obtain ⟨f, hf, hbody⟩ : ∃ f, (programOf sums.definitions).definitions[5]? =
      some (.function f) ∧ f.body = lastSum := ⟨_, rfl, rfl⟩
  have hmatches : Matches sumFrame sumSlots sumState :=
    ⟨funext fun k => by cases k <;> rfl, funext fun k => by cases k <;> rfl⟩
  obtain ⟨o', hcode, hrun⟩ : ∃ o',
      term Settings.standard.emitOptions lastSum ⟨sumSlots, #[]⟩ = .ok ((), o') ∧
      (Machine.run (machine "minecraft" sumsBuild) 1000 o'.instructions.toList
        (sumState.above (.const []))).error = none := ⟨_, rfl, by decide +kernel⟩
  obtain ⟨condition, rest, his, hruns⟩ := calls_one_clause hstaged hb hclean (by decide +kernel)
    hchecks (htable.symm ▸ hasPreludeBuiltins_sums) (by decide +kernel) (by decide +kernel)
    (List.mem_of_getElem? hf) (hbody ▸ .here) hcode
    (.tuple (.cons .literal .nil)) (Emit.carries_singleton 0 (.literal (.int 2)))
    (Frame.ext_on fun k => by cases k <;> rfl) hmatches fun k => by cases k <;> decide +kernel
  rw [List.nil_append] at his
  rw [his] at hrun
  exact ⟨hruntime, hb, hclean, hmatches, o', hcode, condition, rest, his, htable ▸ hruns _ _ hrun⟩

/-! ### Types taken on trust

Emission believes the types that it is given. So the slots are only right where the program checks
and the variables hold values of their types.
-/

/-- A function that is always five. -/
def five : Staged.Function where
  marks := []
  name := ⟨["main"], "five"⟩
  binder := .wildcard (Staged.Pattern.plain .int)
  result := .int
  body := .ofLiteral (.int 5)

/-- A function that evaluates a conditional on its number and then returns the number. -/
def ignoring (name : String) (onThree otherwise : Staged.Term) : Staged.Function where
  marks := []
  name := ⟨["main"], name⟩
  binder := .var (Staged.Pattern.plain .int) ⟨"x", 0⟩
  result := .int
  body := .ofLet (.wildcard (Staged.Pattern.plain .int))
    (.ofCond (.ofTest (.var .int ⟨"x", 0⟩) (.int (Staged.Pattern.plain .int) 3)) onThree otherwise)
    (.var .int ⟨"x", 0⟩)

/-- A function that applies its argument in a clause. -/
def applying : Staged.Function where
  marks := []
  name := ⟨["main"], "applies"⟩
  binder := .var (Staged.Pattern.plain (.function .int .int)) ⟨"g", 0⟩
  result := .int
  body := .ofCond (.ofLiteral (.bool true))
    (.ofApply (.var (.function .int .int) ⟨"g", 0⟩) (.ofLiteral (.int 1))) (.ofLiteral (.int 0))

/-- Clauses that are a command of type `int`, a call with a text for a number, and an application of
a variable. -/
def trusting : Table :=
  .ofList [.function five,
    .function (ignoring "prints" (.command .int "say hi") (.ofLiteral (.int 5))),
    .function (ignoring "calls" (.call .int ⟨["main"], "five"⟩ (.ofLiteral (.string "a")))
      (.ofLiteral (.int 5))),
    .function applying]

/-- The build of `trusting`. -/
def trustingBuild : Build := (build? 0 .standard .prelude trusting).getD default

/-- From a state that matches the model, with the variable of the function in its slot, the machine
gets through a conditional of the function, and some stack has not grown by the slots of its
type. -/
def Misplaces (name : DefName) (k : StackKind) (v : Nbt) : Prop :=
  ∃ f τ c a thenName elseName o', .function f ∈ (programOf trusting.definitions).definitions ∧
    f.name = name ∧ (Term.branch τ c a thenName elseName).Within f.body ∧
    term Settings.standard.emitOptions (.branch τ c a thenName elseName)
      ⟨⟨(PerKind.const []).update k fun _ => [.bound 0]⟩, #[]⟩ = .ok ((), o') ∧
    Matches (variableFrame k v) ⟨(PerKind.const []).update k fun _ => [.bound 0]⟩
      (Machine.State.empty.push k v) ∧
    (Machine.run (machine "minecraft" trustingBuild) 100 o'.instructions.toList
      (Machine.State.empty.push k v)).error = none ∧
    ∃ j, ((Machine.run (machine "minecraft" trustingBuild) 100 o'.instructions.toList
      (Machine.State.empty.push k v)).state.stack j).length ≠
        ((variableFrame k v).on j).length + τ.erase.count j

theorem misplaces_trusting :
    build? 0 .standard .prelude trusting = some trustingBuild ∧ trustingBuild.isClean = true ∧
    (trustingBuild.artifacts.map Artifact.location).Nodup ∧
    Misplaces ⟨["main"], "prints"⟩ .int (.int 3) ∧ Misplaces ⟨["main"], "calls"⟩ .int (.int 3) ∧
    Misplaces ⟨["main"], "applies"⟩ .compound (.compound [("_", .int 7)]) := by
  have hruntime : trusting.isRunTime = true := by decide +kernel
  have hb : build? 0 .standard .prelude trusting = some trustingBuild := by
    rw [trustingBuild, build?_of_isRunTime 0 .standard .prelude hruntime]
    rfl
  refine ⟨hb, by decide +kernel, by decide +kernel, ?command, ?call, ?application⟩
  case command =>
    exact ⟨_, _, _, _, _, _, _, List.mem_of_getElem? (i := 1) rfl, rfl, .init .here, rfl,
      ⟨funext fun j => by cases j <;> rfl, funext fun j => by cases j <;> rfl⟩,
      by decide +kernel, .int, by decide +kernel⟩
  case call =>
    exact ⟨_, _, _, _, _, _, _, List.mem_of_getElem? (i := 4) rfl, rfl, .init .here, rfl,
      ⟨funext fun j => by cases j <;> rfl, funext fun j => by cases j <;> rfl⟩,
      by decide +kernel, .string, by decide +kernel⟩
  case application =>
    exact ⟨_, _, _, _, _, _, _, List.mem_of_getElem? (i := 7) rfl, rfl, .here, rfl,
      ⟨funext fun j => by cases j <;> rfl, funext fun j => by cases j <;> rfl⟩,
      by decide +kernel, .compound, by decide +kernel⟩

end Stagecraft.Pipeline
