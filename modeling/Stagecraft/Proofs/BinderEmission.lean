import Stagecraft.Proofs.EmissionLogic

/-!
# Emitted code for binders, tests and variables

Where the condition on cells holds, the emitted instructions take the stacks from one frame to the
next, and the model follows. The frame below is arbitrary and comes out as it went in.

A binder may find variables of the same pattern above the value it binds, because the elements of
a tuple are bound from the last one; what lies above is bound already (`U.bound = U`), so the
topmost free slots are those of the value.
-/

namespace Stagecraft.Emit

open Target (StackKind Nbt Location Instruction DataPath Source Register ScoreRange)
open Machine (State Calls leads leadsOne leadsOne_of_apply leadsOne_ifScore)
open Flat (Ty Pattern Term)
open Emit.Frame (held ofBindings)

/-- Indices stay representable while so many more slots are pushed. -/
def Frame.Small (F : Frame) (weight : Nat) : Prop := ∀ k, (F.on k).length + weight < 2 ^ 31

theorem Frame.Small.mono {F G : Frame} {w w' : Nat} (h : F.Small w)
    (hle : ∀ k, (G.on k).length + w' ≤ (F.on k).length + w) : G.Small w' :=
  fun k => Nat.lt_of_le_of_lt (hle k) (h k)

theorem length_held_le (use : Slot) (cs : Cells) (k : StackKind) :
    ((held use cs).on k).length ≤ cs.length := by
  rw [Frame.length_held, ← List.length_map (·.1)]
  exact List.count_le_length

theorem oneSlot_ok {ty : Ty} {what : String} {k : StackKind} (h : oneSlot ty what = .ok k) :
    ty.erase = [k] ∧ k ≠ .endTag := by
  rw [oneSlot] at h
  split at h
  · next j hj =>
    split at h
    · cases h
    · next hne =>
      cases h
      exact ⟨hj, hne⟩
  · cases h

@[simp] theorem stack_setScore (s : State) (r : Register) (n : Int32) :
    (s.setScore r n).stack = s.stack := by
  cases r <;> rfl

@[simp] theorem score_setScore_self (s : State) (r : Register) (n : Int32) :
    (s.setScore r n).score r = n := by
  cases r <;> rfl

theorem Matches.of_stack {F : Frame} {slots : Slots} {s s' : State} (h : Matches F slots s)
    (hs : s'.stack = s.stack) : Matches F slots s' :=
  ⟨h.uses, hs.trans h.values⟩

/-! ## Binders -/

section

variable {c : Calls} (options : Options)

/-- A value with the cells of free slots is bound: what is copied comes on top of everything, what
is kept stays in its place. -/
def bindPre (weight : Nat) (pre : Cells → (Bound → Bound → Prop) → Prop) :
    Pre (List StackKind) :=
  fun slots s Post => ∃ U cs R, Matches (U ++ held .free cs ++ R) slots s ∧ U.bound = U ∧
    (U ++ held .free cs ++ R).Small weight ∧ pre cs fun copied kept => ∀ frame slots' s',
      Matches (ofBindings copied ++ U ++ ofBindings kept ++ R) slots' s' → s'.score = s.score →
        (∀ k, frame.count k = ((ofBindings (copied ++ kept)).on k).length) → Post frame slots' s'

/-- The fields of a record are copied on top of everything and bound. -/
def bindFieldsPre (record weight : Nat)
    (pre : List (String × Nbt) → (Bound → Prop) → Prop) : Pre (List StackKind) :=
  fun slots s Post => ∃ U entries R,
    Matches (U ++ held .free [(.compound, .compound entries)] ++ R) slots s ∧ U.bound = U ∧
      (R.on .compound).length = record ∧
        (U ++ held .free [(.compound, .compound entries)] ++ R).Small weight ∧
          pre entries fun copied => ∀ frame slots' s',
            Matches (ofBindings copied ++ U ++ held .free [(.compound, .compound entries)] ++ R)
              slots' s' → s'.score = s.score →
                (∀ k, frame.count k = ((ofBindings copied).on k).length) → Post frame slots' s'

theorem emits_bindNumber : Emits c (do removeFree options .int; return [])
    (bindPre 0 fun cs Q => cs.map (·.1) = [.int] ∧ Q [] []) := by
  refine ((emits_removeFree options .int).bind fun _ => Emits.pure _).mono ?_
  rintro slots s Post ⟨U, cs, R, hF, hU, hsmall, hks, hPost⟩
  obtain ⟨⟨j, v⟩, rfl, rfl⟩ := List.map_eq_singleton_iff.1 hks
  refine ⟨U, v, R, hF, hU, hsmall _, fun slots' s' hF' hs' => hPost _ _ _ ?_ hs' fun k => rfl⟩
  simpa using hF'

mutual

theorem emits_bind : ∀ p : Pattern,
    Emits c (bind options p) (bindPre (patternWeight p) (binderPre p))
  | .var info v => by
    rw [bind]
    refine ((emits_claimAll v.level info.ty.erase).bind fun _ => Emits.pure _).mono ?_
    rintro slots s Post ⟨U, cs, R, hF, hU, -, hks, hPost⟩
    refine ⟨U, cs, R, hF, hU, hks, fun slots' hF' => hPost _ _ _ ?_ rfl fun k => ?_⟩
    · simpa [Frame.ofBindings_cons] using hF'
    · simp [Frame.ofBindings_cons, Frame.length_held, hks]
  | .int .. | .range .. => by
    rw [bind]
    exact emits_bindNumber options
  | .wildcard info => by
    rw [bind]
    refine ((emits_removeFreeAll options info.ty.erase.reverse).bind fun _ =>
      Emits.pure _).mono ?_
    rintro slots s Post ⟨U, cs, R, hF, hU, hsmall, hks, hPost⟩
    refine ⟨U, cs, R, hF, hU, by rw [hks, List.reverse_reverse], hsmall,
      fun slots' s' hF' hs' => hPost _ _ _ ?_ hs' fun k => rfl⟩
    simpa using hF'
  | .tuple _ ps => by
    rw [bind]
    exact emits_bindAll ps
  | .compound _ fields => by
    rw [bind]
    refine ((Emits.ask _).bind fun record => (emits_bindFields record fields).bind fun _ =>
      Emits.get.bind fun _ => (emits_removeAt options .compound _ _).bind fun _ =>
        Emits.pure _).mono ?_
    rintro slots s Post ⟨U, cs, R, hF, hU, hsmall, entries, rfl, h⟩ record hrecord
    rw [Slots.lastFree_eq hU hF.uses] at hrecord
    cases hrecord
    refine ⟨U, entries, R, hF, hU, rfl, hsmall, fieldBindersPre_mono ?_ h⟩
    rintro copied hcopied hPost frame slots₁ s₁ hF₁ hs₁ hframe _ rfl
    have hlt : ((ofBindings copied ++ U ++ held .free [(.compound, .compound entries)] ++ R).on
        .compound).length < 2 ^ 31 := by
      have h₁ := hcopied .compound
      have h₂ := hsmall .compound
      simp only [Frame.on_append, List.length_append, patternWeight] at h₂ ⊢
      omega
    refine ⟨ofBindings copied ++ U, .free, _, R, hF₁, Slots.toInt_relative_eq hF₁.uses hlt,
      fun slots₂ s₂ hF₂ hs₂ => hPost frame slots₂ s₂ ?_ (hs₂.trans hs₁) fun k => ?_⟩
    · simpa using hF₂
    · rw [hframe k, List.append_nil]
  | .list .. => by
    rw [bind]
    exact Emits.throw _ _

theorem emits_bindAll : ∀ ps : List Pattern,
    Emits c (bindAll options ps) (bindPre (patternsWeight ps) (bindersPre ps))
  | [] => by
    rw [bindAll]
    refine (Emits.pure _).mono ?_
    rintro slots s Post ⟨U, cs, R, hF, hU, -, rfl, hPost⟩
    exact hPost _ _ _ (by simpa using hF) rfl fun k => rfl
  | p :: ps => by
    rw [bindAll]
    refine ((emits_bindAll ps).bind fun _ => (emits_bind p).bind fun _ => Emits.pure _).mono ?_
    rintro slots s Post ⟨U, cs, R, hF, hU, hsmall, h⟩
    have hcs : held .free cs = held .free (cs.drop p.ty.erase.length) ++
        held .free (cs.take p.ty.erase.length) := by
      rw [← Frame.held_append, List.take_append_drop]
    rw [hcs, ← Frame.append_assoc, Frame.append_assoc] at hF hsmall
    refine ⟨U, _, _, hF, hU, hsmall.mono fun k => ?_, bindersPre_mono ?_ h⟩
    · rw [patternsWeight]
      omega
    rintro copied kept hlater h frame₁ slots₁ s₁ hF₁ hs₁ hframe₁
    rw [← Frame.append_assoc] at hF₁
    refine ⟨_, _, R, hF₁, by simp [hU], hsmall.mono fun k => ?_, binderPre_mono ?_ h⟩
    · have := hlater k
      rw [← Frame.length_held .free] at this
      simp only [Frame.ofBindings_append, Frame.on_append, List.length_append,
        patternsWeight] at this ⊢
      omega
    rintro copied' kept' - hPost frame₂ slots₂ s₂ hF₂ hs₂ hframe₂
    refine hPost _ _ _ ?_ (hs₂.trans hs₁) fun k => ?_
    · simpa only [Frame.ofBindings_append, Frame.append_assoc] using hF₂
    · rw [List.count_append, hframe₁ k, hframe₂ k]
      simp only [Frame.ofBindings_append, Frame.on_append, List.length_append]
      omega

theorem emits_bindFields (record : Nat) : ∀ fields : List (String × Pattern),
    Emits c (bindFields options record fields)
      (bindFieldsPre record (fieldPatternsWeight fields) (fieldBindersPre fields))
  | [] => by
    rw [bindFields]
    refine (Emits.pure _).mono ?_
    rintro slots s Post ⟨U, entries, R, hF, hU, -, -, hPost⟩
    exact hPost _ _ _ hF rfl fun k => rfl
  | (key, p) :: rest => by
    rw [bindFields]
    refine ((Emits.ofExcept _).bind fun k => Emits.get.bind fun _ =>
      (emits_push options k _).bind fun _ => (emits_bind p).bind fun _ =>
        (emits_bindFields record rest).bind fun _ => Emits.pure _).mono ?_
    rintro slots s Post ⟨U, entries, R, hF, hU, rfl, hsmall, h⟩ k hk _ rfl
    obtain ⟨hk, hne⟩ := oneSlot_ok hk
    obtain ⟨v, hv, h⟩ := h k hk
    have hlt : ((U ++ held .free [(.compound, .compound entries)] ++ R).on .compound).length
        < 2 ^ 31 := Nat.lt_of_le_of_lt (Nat.le_add_right _ _) (hsmall .compound)
    have hi := Slots.toInt_relative_eq hF.uses hlt
    refine ⟨_, v, hF, fun _ => ⟨isRelative_slot hi .compound [.key key], ?_⟩,
      fun slots₁ s₁ hF₁ hs₁ => ?_⟩
    · refine read_cut hF.values (by decide) hi ?_
      simp [Machine.valueAt?, hv]
    have hcopy : ∀ j, ((held .free [(k, v)]).on j).length ≤ 1 := fun j => length_held_le _ _ j
    -- the copy is bound with nothing above it
    refine ⟨Frame.empty, _, _, hF₁, rfl, hsmall.mono fun j => ?_, binderPre_mono ?_ h⟩
    · have := hcopy j
      simp only [Frame.on_append, Frame.on_empty, List.length_append, List.length_nil,
        fieldPatternsWeight] at this ⊢
      omega
    rintro copied kept hfirst h frame₂ slots₂ s₂ hF₂ hs₂ hframe₂
    simp only [Frame.append_empty, ← Frame.append_assoc] at hF₂
    refine ⟨_, entries, R, hF₂, by simp [hU], rfl, hsmall.mono fun j => ?_,
      fieldBindersPre_mono ?_ h⟩
    · have h₁ := hfirst j
      have h₂ := hcopy j
      rw [← Frame.length_held .free] at h₁
      simp only [Frame.ofBindings_append, Frame.on_append, List.length_append,
        fieldPatternsWeight] at h₁ ⊢
      omega
    rintro later - hPost frame₃ slots₃ s₃ hF₃ hs₃ hframe₃
    refine hPost _ _ _ ?_ (hs₃.trans (hs₂.trans hs₁)) fun j => ?_
    · simpa only [Frame.ofBindings_append, Frame.append_assoc] using hF₃
    · rw [List.count_append, hframe₂ j, hframe₃ j]
      simp only [Frame.ofBindings_append, Frame.on_append, List.length_append]
      omega

end

end

/-! ## Tests -/

section

variable {c : Calls} (options : Options)

/-- A value is consumed, and the result register cleared unless it passes. -/
def testPre (pre : Cells → (Bool → Prop) → Prop) : Pre Unit := fun slots s Post => ∃ cs R,
  Matches (held .free cs ++ R) slots s ∧ pre cs fun b => ∀ slots' s', Matches R slots' s' →
    s'.result = (if b then s.result else 0) → Post () slots' s'

theorem emits_testInt (range : ScoreRange) :
    Emits c (testInt options range) (testPre (rangePre range)) := by
  refine ((Emits.emit _).bind fun _ => (emits_drop options .int []).bind fun _ =>
    Emits.emit _).mono ?_
  rintro slots s Post ⟨cs, R, hF, v, x, rfl, hx, hPost⟩
  have hread : s.read (.slot .int (-1)) = .ok v :=
    read_slot_cut (A := Frame.empty) hF.values (by decide) rfl
  refine leadsOne_of_apply rfl (State.apply_storeScore hread hx) ?_
  refine ⟨Frame.empty, .free, v, R, hF.of_stack (stack_setScore s _ x), rfl, by decide,
    fun slots₁ s₁ hF₁ hs₁ => ?_⟩
  have hscratch : s₁.score .scratch = x := by rw [hs₁, score_setScore_self]
  have hresult : s₁.result = s.result := congrFun hs₁ Register.result
  refine leadsOne_ifScore.2 ?_
  rw [hscratch]
  cases hr : range.contains x with
  | true => exact hPost slots₁ s₁ hF₁ (by rw [hr, hresult, if_pos rfl])
  | false =>
    exact leadsOne_of_apply (t := s₁.setScore .result 0) rfl rfl
      (hPost slots₁ _ (hF₁.of_stack (stack_setScore s₁ _ _)) (by rw [hr]; rfl))

theorem emits_testDrop (ks : List StackKind) : Emits c (dropAll options [] ks.reverse)
    (testPre fun cs Q => cs.map (·.1) = ks ∧ Q true) := by
  refine (emits_dropAll options [] ks.reverse).mono ?_
  rintro slots s Post ⟨cs, R, hF, rfl, hPost⟩
  refine ⟨Frame.empty, held .free cs, R, hF, fun _ => rfl, fun k => ?_, fun k => by simp,
    fun slots' s' hF' hs' => hPost slots' s' hF' (congrFun hs' Register.result)⟩
  rw [Frame.length_held, List.count_reverse]

mutual

theorem emits_test : ∀ p : Pattern, Emits c (test options p) (testPre (testerPre p))
  | .int _ n => by
    rw [test]
    exact emits_testInt options _
  | .range _ min max => by
    rw [test]
    exact emits_testInt options _
  | .tuple _ ps => by
    rw [test]
    exact emits_testAll ps
  | .var info _ | .wildcard info => by
    rw [test]
    exact emits_testDrop options info.ty.erase
  | .list .. | .compound .. => by
    rw [test]
    exact Emits.throw _ _

theorem emits_testAll : ∀ ps : List Pattern,
    Emits c (testAll options ps) (testPre (testersPre ps))
  | [] => by
    rw [testAll]
    refine (Emits.pure _).mono ?_
    rintro slots s Post ⟨cs, R, hF, rfl, hPost⟩
    exact hPost slots s hF rfl
  | p :: ps => by
    rw [testAll]
    refine ((emits_testAll ps).bind fun _ => emits_test p).mono ?_
    rintro slots s Post ⟨cs, R, hF, h⟩
    have hcs : held .free cs = held .free (cs.drop p.ty.erase.length) ++
        held .free (cs.take p.ty.erase.length) := by
      rw [← Frame.held_append, List.take_append_drop]
    rw [hcs, Frame.append_assoc] at hF
    refine ⟨_, _, hF, testersPre_mono ?_ h⟩
    rintro later h slots₁ s₁ hF₁ hs₁
    refine ⟨_, R, hF₁, testerPre_mono ?_ h⟩
    rintro first hPost slots₂ s₂ hF₂ hs₂
    refine hPost slots₂ s₂ hF₂ ?_
    rw [hs₂, hs₁]
    cases first <;> cases later <;> rfl

end

/-- Test the value on top of the stacks and leave the answer in its place. -/
def answer (p : Pattern) : EmitM Unit := do
  emit (.setScore .result 1)
  test options p
  push options .byte (.value (.byte 0))
  emit (.storeData (.slot .byte (-1)) .result)

/-- The code of a test answers after the code of what is tested. -/
theorem term_test (ty : Ty) (e : Term) (p : Pattern) :
    term options (.test ty e p) = term options e >>= fun _ => answer options p := by
  rw [term]
  rfl

theorem emits_answer (p : Pattern) : Emits c (answer options p) fun slots s Post =>
    ∃ cs F, Matches (held .free cs ++ F) slots s ∧ testerPre p cs fun b => ∀ slots' s',
      Matches (held .free [(.byte, .byte (if b then 1 else 0))] ++ F) slots' s' →
        Post () slots' s' := by
  refine ((Emits.emit _).bind fun _ => (emits_test options p).bind fun _ =>
    (emits_push options .byte _).bind fun _ => Emits.emit _).mono ?_
  rintro slots s Post ⟨cs, F, hF, h⟩
  refine leadsOne_of_apply (t := s.setScore .result 1) rfl rfl ?_
  refine ⟨cs, F, hF.of_stack (stack_setScore s _ _), testerPre_mono ?_ h⟩
  rintro b h slots₂ s₂ hF₂ hs₂
  refine ⟨F, .byte 0, hF₂, fun _ => ⟨rfl, rfl⟩, fun slots₃ s₃ hF₃ hs₃ => ?_⟩
  obtain ⟨s₄, hs₄, hvalues, -⟩ := write_cut (A := Frame.empty) (i := -1) hF₃.values (by decide)
    rfl (.byte (s₃.score .result).toInt8)
  have hbyte : (s₃.score .result).toInt8 = if b then 1 else 0 := by
    rw [hs₃]
    change s₂.result.toInt8 = _
    rw [hs₂]
    cases b <;> rfl
  rw [hbyte] at hs₄ hvalues
  refine leadsOne_of_apply (t := s₄) rfl ?_
    (h slots₃ s₄ (Matches.replace (A := Frame.empty) hF₃ hvalues))
  rw [State.apply, hbyte]
  exact hs₄

end

/-! ## Variables -/

section

variable {c : Calls} (options : Options)

theorem Frame.Represents.push {F : Frame} {ρ : Bound} (h : F.Represents ρ) (cs : Cells) :
    (held .free cs ++ F).Represents ρ := by
  rw [Frame.Represents, Frame.bound_append, Frame.bound_held_free, Frame.empty_append]
  exact h

/-- The slots of a variable are copied one after another, wherever in the frame they lie. -/
theorem emits_copySlots (v : Var) : ∀ (ks before : List StackKind),
    Emits c (copySlots options v before ks) fun slots s Post => ∃ F ρ, ∃ done todo : Cells,
      Matches (held .free done ++ F) slots s ∧ F.Represents ρ ∧
        Keyed.find? v.level ρ = some (done ++ todo) ∧ done.map (·.1) = before ∧
          todo.map (·.1) = ks ∧ F.Small (done ++ todo).length ∧ ∀ slots' s',
            Matches (held .free (done ++ todo) ++ F) slots' s' → s'.score = s.score →
              Post () slots' s'
  | [], before => by
    rw [copySlots]
    refine (Emits.pure _).mono ?_
    rintro slots s Post ⟨F, ρ, done, todo, hF, -, -, -, htodo, -, hPost⟩
    obtain rfl := List.map_eq_nil_iff.1 htodo
    exact hPost slots s (by simpa using hF) rfl
  | k :: ks, before => by
    rw [copySlots]
    refine (Emits.get.bind fun o => Emits.option
      (x := o.slots.find? k v.level (before.count k) ((before ++ k :: ks).count k))
      (fun h => ⟨.unresolvedVariable v.name, by rw [h]⟩) fun i h => by
        rw [h]
        exact (emits_push options k (.copy (.slot k i))).bind fun _ =>
          emits_copySlots v ks (before ++ [k])).mono ?_
    rintro slots s Post ⟨F, ρ, done, todo, hF, hρ, hv, rfl, htodo, hsmall, hPost⟩ _ rfl i hi
    obtain ⟨⟨j, w⟩, rest, rfl, rfl, hrest⟩ := List.map_eq_cons_iff.1 htodo
    obtain ⟨A, R, hcut, hfind⟩ := find?_eq (k := j) hF.uses (hρ.push done) hv
    have hks : done.map (·.1) ++ j :: ks = (done ++ (j, w) :: rest).map (·.1) := by simp [hrest]
    simp only [hks, hfind, Option.some.injEq] at hi
    subst hi
    have hA : ((-1 : Int32) - Int32.ofNat (A.on j).length).toInt =
        -1 - ((A.on j).length : Int) := by
      refine toInt_fromTop ?_
      have h₁ := congrArg (fun G : Frame => (G.on j).length) hcut
      have h₂ := hsmall j
      have h₃ := length_held_le .free done j
      simp only [Frame.on_append, List.length_append, List.length_cons] at h₁ h₂
      omega
    have hF' := hF
    rw [hcut] at hF'
    refine ⟨held .free done ++ F, w, hF, fun hne => ⟨isRelative_slot hA j [], ?_⟩,
      fun slots₁ s₁ hF₁ hs₁ => ?_⟩
    · rw [State.source]
      exact read_slot_cut hF'.values hne hA
    · refine ⟨F, ρ, done ++ [(j, w)], rest, ?_, hρ, by simpa using hv, by simp, hrest,
        by simpa using hsmall, fun slots₂ s₂ hF₂ hs₂ => hPost slots₂ s₂ (by simpa using hF₂)
          (hs₂.trans hs₁)⟩
      rw [Frame.held_append, Frame.append_assoc]
      exact hF₁

/-- Captured variables are added to the record on top. -/
theorem emits_storeCaptures : ∀ captures : List Flat.Capture,
    Emits c (storeCaptures captures) fun slots s Post => ∃ F ρ fields,
      Matches (held .free [(.compound, .compound fields)] ++ F) slots s ∧ F.Represents ρ ∧
        F.Small 1 ∧ capturesPre ρ captures fields fun fields' => ∀ slots' s',
          Matches (held .free [(.compound, .compound fields')] ++ F) slots' s' →
            s'.score = s.score → Post () slots' s'
  | [] => by
    rw [storeCaptures]
    refine (Emits.pure _).mono ?_
    rintro slots s Post ⟨F, ρ, fields, hF, -, -, hPost⟩
    exact hPost slots s hF rfl
  | cap :: rest => by
    rw [storeCaptures]
    refine (Emits.ite (p := cap.ty.erase ≠ [.endTag]) (fun _ => (Emits.ofExcept _).bind fun k =>
      Emits.get.bind fun o => Emits.option (x := o.slots.find? k cap.v.level 0 1)
        (fun h => ⟨.unresolvedVariable cap.v.name, by rw [h]; rfl⟩) fun i h => by
          rw [h]
          exact (Emits.emit _).bind fun _ => emits_storeCaptures rest)
        fun _ => emits_storeCaptures rest).mono ?_
    rintro slots s Post ⟨F, ρ, fields, hF, hρ, hsmall, h⟩
    rw [capturesPre] at h
    refine ⟨?_, fun he => ?_⟩
    · rintro hne k hk _ rfl i hi
      obtain ⟨hk, hend⟩ := oneSlot_ok hk
      rw [if_neg hne] at h
      obtain ⟨v, hv, h⟩ := h k hk
      obtain ⟨A, R, hcut, hfind⟩ := find?_eq hF.uses (hρ.push _)
        (show Keyed.find? cap.v.level _ = some ([] ++ (k, v) :: []) from hv)
      have hcount : ([(k, v)].map (·.1)).count k = 1 := by simp
      rw [List.nil_append, hcount, List.map_nil, List.count_nil, hi] at hfind
      obtain rfl := Option.some.inj hfind
      have hA : ((-1 : Int32) - Int32.ofNat (A.on k).length).toInt =
          -1 - ((A.on k).length : Int) := by
        refine toInt_fromTop ?_
        have h₁ := congrArg (fun G : Frame => (G.on k).length) hcut
        have h₂ := hsmall k
        have h₃ := length_held_le .free [(.compound, .compound fields)] k
        simp only [Frame.on_append, List.length_append, List.length_singleton] at h₁ h₃
        omega
      have hF' := hF
      rw [hcut] at hF'
      obtain ⟨s', hs', hvalues, hscore⟩ := write_part_cut (A := Frame.empty)
        (i := -1) (n := .key cap.v.name) (x := v) hF.values (by decide) rfl fun _ => rfl
      refine leadsOne_of_apply (t := s') ?_ ?_ ?_
      · exact Instruction.isRelative_set (isRelative_slot (d := 0) rfl .compound [.key _])
          (isRelative_slot hA k [])
      · rw [State.apply_set_copy (read_slot_cut hF'.values hend hA), DataPath.field_slot]
        exact hs'
      · exact ⟨F, ρ, _, Matches.replace (A := Frame.empty) hF hvalues, hρ, hsmall,
          capturesPre_mono (fun _ h slots₂ s₂ hF₂ hs₂ =>
            h slots₂ s₂ hF₂ (hs₂.trans hscore)) h⟩
    · rw [if_pos (not_not.1 he)] at h
      exact ⟨F, ρ, fields, hF, hρ, hsmall, h⟩

end

end Stagecraft.Emit
