import Stagecraft.Proofs.Builds
import Stagecraft.Proofs.MachineLogic

/-!
# The dispatcher

Every application calls one function. It reads the tag of a function value into the result register
and goes through a guarded call for each closure body, one after another. The guards all look at the
register that the bodies overwrite, so only one of them fires because every body puts its own tag
back as the last thing it does.

`activation` is a run in which the calls that the code makes itself are kept apart from those inside
its callees; it ends as `run` does (`outcome_activation`). `calls_dispatcher` says what an activation
of the dispatcher calls: the body of the tag, once, and nothing else.
-/

namespace Stagecraft.Machine

open Target (Nbt DataPath Location Instruction ScoreRange)

/-! ## Activations -/

theorem fuel_run_le (p : Program) (fuel : Nat) (is : List Instruction) (s : State) :
    (run p fuel is s).fuel ≤ fuel := by
  fun_induction run p fuel is s <;> grind

theorem fuel_call_le (p : Program) (fuel : Nat) (location : Location) (s : State) :
    (call p fuel location s).fuel ≤ fuel := by
  unfold call
  split
  · split <;> exact Nat.le_refl _
  · split
    · exact fuel_run_le p fuel _ s
    · exact Nat.le_refl _

/-- Work through the instructions of one activation. Beside how that ends, it gives the locations
that these instructions call, in order; what a callee calls is not among them. -/
def activation (p : Program) (fuel : Nat) (is : List Instruction) (s : State) :
    Outcome × List Location :=
  match fuel, is with
  | fuel, [] => (⟨s, fuel, none⟩, [])
  | 0, _ :: _ => (⟨s, 0, some .outOfFuel⟩, [])
  | fuel + 1, .ifScore negated r range body :: rest =>
    activation p fuel (if range.contains (s.score r) != negated then body :: rest else rest) s
  | fuel + 1, .call location :: rest =>
    match (call p fuel location s).error with
    | some _ => (call p fuel location s, [location])
    | none =>
      let (o, calls) :=
        activation p (call p fuel location s).fuel rest (call p fuel location s).state
      (o, location :: calls)
  | fuel + 1, i :: rest =>
    match s.apply i with
    | .ok s => activation p fuel rest s
    | .error e => (⟨s, fuel, some e⟩, [])
termination_by fuel
decreasing_by
  · exact Nat.lt_succ_self fuel
  · exact Nat.lt_succ_of_le (fuel_call_le p fuel location s)
  · exact Nat.lt_succ_self fuel

/-- The locations that one activation of a function calls itself, in order. -/
def callsOf (p : Program) (fuel : Nat) (location : Location) (s : State) : List Location :=
  match Keyed.find? location p.natives, Keyed.find? location p.functions with
  | none, some body => (activation p fuel body s).2
  | _, _ => []

/-- A call in front of other instructions goes through before they do. -/
theorem run_call (p : Program) (fuel : Nat) (location : Location) (rest : List Instruction)
    (s : State) : run p (fuel + 1) (.call location :: rest) s =
      match (call p fuel location s).error with
      | some _ => call p fuel location s
      | none => run p (call p fuel location s).fuel rest (call p fuel location s).state := by
  rw [run, call]
  split
  · split <;> rfl
  · split
    · rw [run_append]
      split <;> simp_all
    · rfl

/-- Keeping the calls apart does not change how a run ends. -/
theorem outcome_activation (p : Program) (fuel : Nat) (is : List Instruction) (s : State) :
    (activation p fuel is s).1 = run p fuel is s := by
  fun_induction activation p fuel is s with
  | case1 s fuel => rw [run]
  | case2 => rw [run]
  | case3 s fuel negated r range body rest ih =>
    rw [run]
    simpa only [dite_eq_ite] using ih
  | case4 s fuel location rest e he => rw [run_call, he]
  | case5 s fuel location rest hnone o calls hact ih =>
    rw [run_call, hnone]
    rw [hact] at ih
    exact ih
  | case6 s fuel i rest hif hcall s' hs ih =>
    rw [ih]
    cases i with
    | ifScore => exact absurd rfl (hif _ _ _ _)
    | call => exact absurd rfl (hcall _)
    | _ => simp only [run, hs]
  | case7 s fuel i rest hif hcall e he =>
    cases i with
    | ifScore => exact absurd rfl (hif _ _ _ _)
    | call => exact absurd rfl (hcall _)
    | _ => simp only [run, he]

/-- Code that puts a score into the result register in the end leaves that score there. -/
theorem result_of_restores {p : Program} {fuel : Nat} {is : List Instruction} {n : Int32}
    {s : State} (h : (run p fuel (is ++ [.setScore .result n]) s).error = none) :
    (run p fuel (is ++ [.setScore .result n]) s).state.result = n := by
  rw [run_append] at h ⊢
  cases he : (run p fuel is s).error with
  | some e =>
    rw [he] at h
    simp only [he] at h
    cases h
  | none =>
    simp only [he] at h ⊢
    cases hf : (run p fuel is s).fuel with
    | zero => simp [hf, run] at h
    | succ f => simp [run, State.apply, State.setScore]

theorem activation_of_apply (p : Program) (fuel : Nat) {i : Instruction} (rest : List Instruction)
    {s s' : State} (hi : i.isRelative) (h : s.apply i = .ok s') :
    activation p (fuel + 1) (i :: rest) s = activation p fuel rest s' := by
  cases i with
  | ifScore | call => cases hi
  | _ => simp only [activation, h]

/-- The tag of a function value goes into the result register. -/
theorem apply_storeTag {s : State} {fields : List (String × Nbt)} {below : List Nbt} {n : Int32}
    (hs : s.stack .compound = .compound fields :: below)
    (hfield : Keyed.find? "_" fields = some (.int n)) :
    s.apply (.storeScore .result ((DataPath.slot .compound (-1)).field "_")) =
      .ok (s.setScore .result n) := by
  have hdepth : s.depth? .compound (-1) = some 0 :=
    (State.depth?_eq_some (by decide)).2 ⟨by decide, by simp [hs]⟩
  refine State.apply_storeScore (v := .int n) ?_ rfl
  simp [State.read, DataPath.field_slot, hdepth, hs, valueAt?, hfield]

/-! ## Guarded calls -/

/-- A call that is made if the result register holds a tag. -/
def guarded (guard : Nat × Location) : Instruction :=
  .ifScore false .result (.exactly (Int32.ofNat guard.1)) (.call guard.2)

section

variable {p : Program} {s : State} {guards : List (Nat × Location)} {rest : List Instruction}

/-- A guard of another tag than the one in the register is passed over. -/
theorem activation_guarded_of_ne {g : Nat × Location} (h : Int32.ofNat g.1 ≠ s.result)
    (fuel : Nat) : activation p (fuel + 1) (guarded g :: rest) s = activation p fuel rest s := by
  have hc : ¬ (ScoreRange.exactly (Int32.ofNat g.1)).contains s.result = true :=
    fun hc => h ((ScoreRange.contains_exactly _ _).1 hc)
  rw [guarded, activation]
  simp [State.score, hc]

/-- A guard of the tag in the register makes its call. -/
theorem activation_guarded_of_eq {g : Nat × Location} (h : Int32.ofNat g.1 = s.result)
    (fuel : Nat) : activation p (fuel + 1) (guarded g :: rest) s =
      activation p fuel (.call g.2 :: rest) s := by
  have hc : (ScoreRange.exactly (Int32.ofNat g.1)).contains s.result = true :=
    (ScoreRange.contains_exactly _ _).2 h
  rw [guarded, activation]
  simp [State.score, hc]

/-- Guards of other tags than the one in the register are passed over. -/
theorem activation_guards (h : ∀ g ∈ guards, Int32.ofNat g.1 ≠ s.result) {fuel : Nat}
    (hrun : (activation p fuel (guards.map guarded ++ rest) s).1.error = none) :
    ∃ fuel', activation p fuel (guards.map guarded ++ rest) s = activation p fuel' rest s := by
  induction guards generalizing fuel with
  | nil => exact ⟨fuel, rfl⟩
  | cons g guards ih =>
    cases fuel with
    | zero => simp [activation] at hrun
    | succ fuel =>
      rw [List.map_cons, List.cons_append,
        activation_guarded_of_ne (h g List.mem_cons_self)] at hrun ⊢
      exact ih (fun g hg => h g (List.mem_cons_of_mem _ hg)) hrun

/-- Among guards with tags of their own the one whose tag is in the register makes its call. If the
callee puts that tag back, it makes the only one. -/
theorem calls_guards {before after : List (Nat × Location)} {g : Nat × Location}
    (hg : Int32.ofNat g.1 = s.result)
    (hbefore : ∀ g' ∈ before, Int32.ofNat g'.1 ≠ Int32.ofNat g.1)
    (hafter : ∀ g' ∈ after, Int32.ofNat g'.1 ≠ Int32.ofNat g.1)
    (hrestore : ∀ fuel s, (call p fuel g.2 s).error = none →
      (call p fuel g.2 s).state.result = Int32.ofNat g.1) {fuel : Nat}
    (hrun : (activation p fuel ((before ++ g :: after).map guarded) s).1.error = none) :
    (activation p fuel ((before ++ g :: after).map guarded) s).2 = [g.2] ∧
      (activation p fuel ((before ++ g :: after).map guarded) s).1.state.result =
        Int32.ofNat g.1 := by
  rw [List.map_append, List.map_cons] at hrun ⊢
  obtain ⟨fuel, hfuel⟩ := activation_guards (fun g' h => hg ▸ hbefore g' h) hrun
  rw [hfuel] at hrun ⊢
  match fuel with
  | 0 => simp [activation] at hrun
  | 1 => simp [activation_guarded_of_eq hg, activation] at hrun
  | fuel + 2 =>
    rw [activation_guarded_of_eq hg, activation] at hrun ⊢
    cases hcall : (call p fuel g.2 s).error with
    | some e =>
      simp only [hcall] at hrun
      cases hrun
    | none =>
      simp only [hcall] at hrun ⊢
      -- the callee has put the tag back, so the guards after it stay quiet
      have hresult := hrestore fuel s hcall
      rw [← List.append_nil (after.map guarded)] at hrun ⊢
      obtain ⟨fuel', hrest⟩ := activation_guards (fun g' h => hresult ▸ hafter g' h) hrun
      rw [hrest, activation]
      exact ⟨rfl, hresult⟩

end

end Stagecraft.Machine

namespace Stagecraft.Emit

open Target (Instruction)

/-! ## What a function does last -/

/-- A computation that emits an instruction last. -/
def EmitsLast {α : Type} (i : Instruction) (x : EmitM α) : Prop :=
  ∀ o a o', x o = .ok (a, o') → ∃ is, o'.instructions.toList = is ++ [i]

namespace EmitsLast

variable {i : Instruction} {α β : Type}

theorem emit : EmitsLast i (emit i) := by
  intro o a o' h
  cases h
  exact ⟨o.instructions.toList, Array.toList_push⟩

theorem bind {x : EmitM α} {f : α → EmitM β} (h : ∀ a, EmitsLast i (f a)) :
    EmitsLast i (x >>= f) := by
  intro o b o'' hrun
  change (x o >>= fun r => f r.1 r.2) = .ok (b, o'') at hrun
  cases hx : x o with
  | error e =>
    rw [hx] at hrun
    cases hrun
  | ok r =>
    rw [hx] at hrun
    exact h r.1 r.2 b o'' hrun

theorem ite {p : Prop} [Decidable p] {x y : EmitM α} (hx : EmitsLast i x) (hy : EmitsLast i y) :
    EmitsLast i (if p then x else y) := by
  split
  · exact hx
  · exact hy

end EmitsLast

/-- The last instruction of a function that restores a score does so. -/
theorem emitsLast_functionBody (options : Options) {f : Flat.Function} {n : Int32}
    (h : f.restore = some n) : EmitsLast (.setScore .result n) (functionBody options f) := by
  unfold functionBody
  simp only [h]
  exact EmitsLast.bind fun _ => EmitsLast.bind fun _ => EmitsLast.bind fun _ => EmitsLast.bind
    fun _ => EmitsLast.ite (EmitsLast.bind fun _ => EmitsLast.emit)
      (EmitsLast.bind fun _ => EmitsLast.bind fun _ => EmitsLast.emit)

theorem exists_restores {options : Options} {f : Flat.Function} {n : Int32}
    {is : List Instruction} (h : function options f = .ok is) (hn : f.restore = some n) :
    ∃ js, is = js ++ [.setScore .result n] := by
  unfold function at h
  rw [Except.bind_ok] at h
  obtain ⟨⟨u, o⟩, hrun, h⟩ := h
  cases h
  exact emitsLast_functionBody options hn _ _ _ hrun

end Stagecraft.Emit

namespace Stagecraft.Pipeline

open Staged (Table)
open Flat (ClosureTable)
open Emit (Options)
open Machine (Program State)
open Target (Location Artifact DataPath)

/-! ## The dispatcher of a build -/

theorem ofNat_inj {i j : Nat} (hi : i < 2 ^ 32) (hj : j < 2 ^ 32)
    (h : Int32.ofNat i = Int32.ofNat j) : i = j := by
  have hbits := congrArg (fun n : Int32 => n.toBitVec.toNat) h
  simp only [Int32.toBitVec_ofNat', BitVec.toNat_ofNat] at hbits
  rwa [Nat.mod_eq_of_lt hi, Nat.mod_eq_of_lt hj] at hbits

/-- The guards of the dispatcher: every tag with the location of its body. -/
def guards (options : Options) (bodies : List DefName) : List (Nat × Location) :=
  bodies.zipIdx.map fun e => (e.2, .ofName options.nspace e.1)

theorem dispatcher_eq (options : Options) (closures : ClosureTable) :
    Emit.dispatcher options closures = .function (.ofName options.nspace Flat.dispatcher)
      (.storeScore .result ((DataPath.slot .compound (-1)).field "_") ::
        (guards options closures.bodies).map Machine.guarded) := by
  rw [Emit.dispatcher, ClosureTable.tagged, guards, List.map_map, List.map_map]
  rfl

/-- The guard of a tag stands between guards of other tags. -/
theorem exists_guards (options : Options) {bodies : List DefName} (hsize : bodies.length ≤ 2 ^ 32)
    {tag : Nat} {name : DefName} (h : bodies[tag]? = some name) :
    ∃ before after, guards options bodies = before ++ (tag, .ofName options.nspace name) :: after ∧
      (∀ g ∈ before, Int32.ofNat g.1 ≠ Int32.ofNat tag) ∧
      ∀ g ∈ after, Int32.ofNat g.1 ≠ Int32.ofNat tag := by
  obtain ⟨hlt, rfl⟩ := List.getElem?_eq_some_iff.1 h
  have hsplit : bodies = bodies.take tag ++ bodies[tag] :: bodies.drop (tag + 1) := by
    rw [← List.drop_eq_getElem_cons hlt, List.take_append_drop]
  have htake : (bodies.take tag).length = tag := List.length_take_of_le hlt.le
  refine ⟨guards options (bodies.take tag),
    ((bodies.drop (tag + 1)).zipIdx (tag + 1)).map fun e => (e.2, .ofName options.nspace e.1),
    ?_, ?_, ?_⟩
  · conv_lhs => rw [guards, hsplit, List.zipIdx_append, List.zipIdx_cons, htake, Nat.zero_add]
    rw [List.map_append, List.map_cons, guards]
  · rintro _ hg heq
    obtain ⟨⟨name, i⟩, hi, rfl⟩ := List.mem_map.1 hg
    have hbound := (List.mem_zipIdx hi).2.1
    rw [htake] at hbound
    have := ofNat_inj (by omega) (by omega) heq
    omega
  · rintro _ hg heq
    obtain ⟨⟨name, i⟩, hi, rfl⟩ := List.mem_map.1 hg
    have hlow := (List.mem_zipIdx hi).1
    have hbound := (List.mem_zipIdx hi).2.1
    rw [List.length_drop] at hbound
    have := ofNat_inj (by omega) (by omega) heq
    omega

/-- A body of a clean build leaves its tag in the result register. -/
theorem result_of_body {fuel : Nat} {settings : Settings} {natives : Eval.Natives} {table : Table}
    {b : Build} (hbuild : build? fuel settings natives table = some b) (hclean : b.isClean)
    (hlocations : (b.artifacts.map Artifact.location).Nodup) {p : Program} (hp : b.RunBy p)
    {tag : Nat} {name : DefName} (htag : b.closures.bodies[tag]? = some name) {n : Nat} {s : State}
    (hcall : (Machine.call p n (.ofName settings.nspace name) s).error = none) :
    (Machine.call p n (.ofName settings.nspace name) s).state.result = Int32.ofNat tag := by
  obtain ⟨residual, hclosures, hartifacts, hfailures⟩ := exists_of_build? hbuild
  rw [hclosures] at htag
  have hnone : b.failures = [] := List.isEmpty_iff.1 hclean
  -- the body has code, and the code ends by restoring the tag
  obtain ⟨f, hf, rfl, hrestore⟩ := exists_body residual residual.definitions htag
  obtain ⟨is, his, hmem⟩ := mem_artifacts (List.subset_nil.1 (hnone ▸ hfailures)) hf
  obtain ⟨js, rfl⟩ := Emit.exists_restores his hrestore
  -- it is what the machine calls
  obtain ⟨d, i, hname⟩ := exists_helperName residual residual.definitions .empty
    (fun _ h => nomatch h) f.name (List.mem_of_getElem? htag)
  have hnative : Keyed.find? (.ofName settings.nspace f.name) p.natives = none :=
    hname ▸ hp.natives.find?_helper settings.nspace d i
  have hfunction : Keyed.find? (.ofName settings.nspace f.name) p.functions =
      some (js ++ [.setScore .result (Int32.ofNat tag)]) := by
    rw [hp.functions]
    exact Machine.find?_addArtifacts hlocations (hartifacts ▸ List.mem_append_left _ hmem) _
  simp only [Machine.call, hnative, hfunction] at hcall ⊢
  exact Machine.result_of_restores hcall

/-- **The dispatcher fires exactly one body.** In a clean build whose artifacts have locations of
their own, call the dispatcher with a function value on top of its stack, whatever the registers
hold. If the call ends, its activation has called the body of the tag, once, and no other one, and
the tag is in the result register. Tags are 32-bit integers at run time, so there must not be more
bodies than those. -/
theorem calls_dispatcher {fuel : Nat} {settings : Settings} {natives : Eval.Natives} {table : Table}
    {b : Build} (hbuild : build? fuel settings natives table = some b) (hclean : b.isClean)
    (hlocations : (b.artifacts.map Artifact.location).Nodup)
    (hsize : b.closures.size ≤ 2 ^ 32) {p : Program} (hp : b.RunBy p) {tag : Nat} {name : DefName}
    (htag : b.closures.bodies[tag]? = some name) {s : State} {fields : List (String × Target.Nbt)}
    {below : List Target.Nbt} (hs : s.stack .compound = .compound fields :: below)
    (hfield : Keyed.find? "_" fields = some (.int (Int32.ofNat tag))) {n : Nat}
    (hcall : (Machine.call p n (.ofName settings.nspace Flat.dispatcher) s).error = none) :
    Machine.callsOf p n (.ofName settings.nspace Flat.dispatcher) s =
        [.ofName settings.nspace name] ∧
      (Machine.call p n (.ofName settings.nspace Flat.dispatcher) s).state.result =
        Int32.ofNat tag := by
  obtain ⟨residual, -, hartifacts, -⟩ := exists_of_build? hbuild
  have hmem := List.mem_append_right
    (artifacts settings.emitOptions (flatten residual .empty residual.definitions).1).1
    (List.mem_singleton_self (Emit.dispatcher settings.emitOptions b.closures))
  rw [← hartifacts, dispatcher_eq] at hmem
  have hnative := hp.natives.find?_dispatcher settings.nspace
  have hfunction := Machine.find?_addArtifacts hlocations hmem .empty
  rw [← hp.functions] at hfunction
  change Keyed.find? (.ofName settings.nspace Flat.dispatcher) p.functions = _ at hfunction
  have hrestore := fun m t =>
    result_of_body hbuild hclean hlocations hp htag (n := m) (s := t)
  simp only [Machine.callsOf, Machine.call, hnative, hfunction] at hcall ⊢
  rw [← Machine.outcome_activation] at hcall ⊢
  obtain ⟨before, after, hguards, hbefore, hafter⟩ :=
    exists_guards settings.emitOptions hsize htag
  rw [hguards] at hcall ⊢
  cases n with
  | zero => simp [Machine.activation] at hcall
  | succ n =>
    rw [Machine.activation_of_apply p n _ rfl (Machine.apply_storeTag hs hfield)] at hcall ⊢
    exact Machine.calls_guards rfl hbefore hafter hrestore hcall

/-- A function that applies one local function to another, which the first one applies twice in a
clause of a conditional. -/
def nested : Table := Table.ofList [.function {
  marks := []
  name := ⟨["main"], "f"⟩
  binder := .var (Staged.Pattern.plain .int) ⟨"x", 0⟩
  result := .int
  body := .ofApply
    (.ofLambda (.var (Staged.Pattern.plain (.function .int .int)) ⟨"k", 1⟩)
      (.ofCond (.ofTest (.var .int ⟨"x", 0⟩) (.int (Staged.Pattern.plain .int) 3))
        (.ofApply (.var (.function .int .int) ⟨"k", 1⟩)
          (.ofApply (.var (.function .int .int) ⟨"k", 1⟩) (.var .int ⟨"x", 0⟩)))
        (.ofLiteral (.int 0))))
    (.ofLambda (.var (Staged.Pattern.plain .int) ⟨"y", 1⟩)
      (.ofCond (.ofTest (.var .int ⟨"y", 1⟩) (.int (Staged.Pattern.plain .int) 3))
        (.ofLiteral (.int 4)) (.ofLiteral (.int 5)))) }]

/-- The two function values of `nested` on the stacks, the first one on top. -/
def nestedState : State :=
  (State.empty.push .compound (.compound [("_", .int 1)])).push .compound
    (.compound [("_", .int 0), ("x", .int 3)])

/-- The body that the dispatcher calls there calls it twice again. -/
theorem calls_dispatcher_nested : ∃ b, build? 10 .standard .prelude nested = some b ∧
    b.isClean ∧ (b.artifacts.map Artifact.location).Nodup ∧ b.closures.size ≤ 2 ^ 32 ∧
    b.closures.bodies = [⟨["main"], "f:2"⟩, ⟨["main"], "f:5"⟩] ∧
    ∃ p : Program, b.RunBy p ∧
      (Machine.call p 100 (.ofName "minecraft" Flat.dispatcher) nestedState).error = none ∧
      Machine.callsOf p 100 (.ofName "minecraft" Flat.dispatcher) nestedState =
        [.ofName "minecraft" ⟨["main"], "f:2"⟩] ∧
      (Machine.call p 100 (.ofName "minecraft" Flat.dispatcher) nestedState).state.result = 0 := by
  have hsome : (build? 10 .standard .prelude nested).isSome := by decide +kernel
  obtain ⟨b, hb⟩ := Option.isSome_iff_exists.1 hsome
  have hall : (build? 10 .standard .prelude nested).all fun b => decide (b.isClean ∧
      (b.artifacts.map Artifact.location).Nodup ∧
      b.closures.bodies = [⟨["main"], "f:2"⟩, ⟨["main"], "f:5"⟩] ∧
      (Machine.call ((Program.empty.addArtifacts b.artifacts).withPrelude "minecraft") 100
        (.ofName "minecraft" Flat.dispatcher) nestedState).error = none) := by decide +kernel
  rw [hb, Option.all_some, decide_eq_true_eq] at hall
  obtain ⟨hclean, hlocations, hbodies, hcall⟩ := hall
  have hsize : b.closures.size ≤ 2 ^ 32 := by simp [ClosureTable.size, hbodies]
  have htag : b.closures.bodies[0]? = some ⟨["main"], "f:2"⟩ := by rw [hbodies]; rfl
  have hstack : nestedState.stack .compound =
      [.compound [("_", .int 0), ("x", .int 3)], .compound [("_", .int 1)]] := rfl
  have hp := runBy_withPrelude b "minecraft"
  refine ⟨b, hb, hclean, hlocations, hsize, hbodies, _, hp, hcall, ?_⟩
  exact calls_dispatcher hb hclean hlocations hsize hp htag hstack rfl hcall

end Stagecraft.Pipeline
