import Stagecraft.Proofs.BinderEmission

/-!
# Emitted code for terms and functions

`emits_term` is the invariant of code generation: code for a term, started on any frame whose bound
slots are the variables in scope, leaves the frame as it was with the cells of the value on top,
and the model says so. Registers survive code that has no call, no conditional and no test in it.
`emits_functionBody` puts a binder and a body together.
-/

namespace Stagecraft.Emit

open Target (StackKind Nbt Location Instruction DataPath Source Register ScoreRange)
open Machine (State Calls leads leadsOne leadsOne_of_apply leadsOne_ifScore)
open Flat (Ty Pattern Term)
open Emit.Frame (held ofBindings)

/-! ## Calls -/

/-- What is known of callees, as what is known of the calls of their locations: the cells of the
argument are replaced by those of a result, over any slots. -/
def Callees.calls (callees : Callees) (options : Options) : Calls where
  lead l s Q := ∃ name keeps as F R, l = .ofName options.nspace name ∧
    s.stack = (held .free as ++ F).values ∧ callees.pre name keeps as R ∧ ∀ rs s', R rs →
      s'.stack = (held .free rs ++ F).values → (keeps → 1 ≤ s.result → 1 ≤ s'.result) → Q s'
  mono := by
    rintro l s P Q hPQ ⟨name, keeps, as, F, R, hl, hs, hR, h⟩
    exact ⟨name, keeps, as, F, R, hl, hs, hR, fun rs s' hrs hs' hpos =>
      hPQ s' (h rs s' hrs hs' hpos)⟩

section

variable {callees : Callees} (options : Options)

/-- After a call the model has the slots of the result instead of those of the argument. -/
theorem emits_returned (ks : List StackKind) (ty : Ty) :
    Emits (callees.calls options) (do forget ks; follow (·.pushAll ty.erase))
      fun slots s Post => ∃ as rs F, slots.stack = (held .free as ++ F).uses ∧
        as.map (·.1) = ks ∧ rs.map (·.1) = ty.erase ∧ s.stack = (held .free rs ++ F).values ∧
          ∀ slots', Matches (held .free rs ++ F) slots' s → Post () slots' s := by
  refine ((emits_forget ks).bind fun _ => Emits.follow _).mono ?_
  rintro slots s Post ⟨as, rs, F, huses, has, hrs, hs, hPost⟩
  refine ⟨as, F, huses, has, fun slots' huses' => hPost _ ⟨?_, hs⟩⟩
  rw [← hrs]
  exact Slots.uses_pushAll huses' rs

theorem contains_atLeast_one (x : Int32) : (ScoreRange.atLeast 1).contains x = decide (1 ≤ x) := by
  simp [ScoreRange.atLeast, ScoreRange.contains]

theorem contains_atMost_zero (x : Int32) : (ScoreRange.atMost 0).contains x = decide (x < 1) := by
  have h : x ≤ 0 ↔ x < 1 := by
    rw [Int32.le_iff_toInt_le, Int32.lt_iff_toInt_lt]
    have h₀ : (0 : Int32).toInt = 0 := rfl
    have h₁ : (1 : Int32).toInt = 1 := rfl
    omega
  simp [ScoreRange.atMost, ScoreRange.contains, h]

/-- Exactly one of the two calls fires: the first one only if the register is positive, and then
it leaves the register positive. -/
theorem emits_jump (thenName elseName : DefName) :
    Emits (callees.calls options) (jump options thenName elseName)
      fun slots s Post => ∃ as F ty x Q, ∃ quiet : Bool, s.stack = (held .free as ++ F).values ∧
        (quiet → s.result = x) ∧ jumpPre callees quiet x thenName elseName as ty Q ∧
          ∀ rs s', rs.map (·.1) = ty.erase → Q rs → s'.stack = (held .free rs ++ F).values →
            Post () slots s' := by
  refine ((Emits.emit _).bind fun _ => Emits.emit _).mono ?_
  rintro slots s Post ⟨as, F, ty, x, Q, quiet, hs, hx, hjump, hPost⟩
  have hcase : ∀ p : Int32 → Prop, p s.result → p x ∨ quiet = false := fun p hp => by
    cases quiet with
    | false => exact .inr rfl
    | true => exact .inl (hx rfl ▸ hp)
  refine leadsOne_ifScore.2 ?_
  by_cases hpos : 1 ≤ s.result
  · have hcall := hjump.1 (hcase (1 ≤ ·) hpos)
    rw [if_pos (by simpa [contains_atLeast_one, State.score] using hpos)]
    refine ⟨thenName, true, as, F, _, rfl, hs, hcall, fun rs s' hrs hs' hkeeps => ?_⟩
    have hpos' := hkeeps rfl hpos
    refine leadsOne_ifScore.2 ?_
    rw [if_neg (by simpa [contains_atMost_zero, State.score] using hpos')]
    exact hPost rs s' hrs.1 hrs.2 hs'
  · have hlt : s.result < 1 := Int32.not_le.1 hpos
    rw [if_neg (by simpa [contains_atLeast_one, State.score] using hlt)]
    refine leadsOne_ifScore.2 ?_
    rw [if_pos (by simpa [contains_atMost_zero, State.score] using hlt)]
    exact ⟨elseName, false, as, F, _, rfl, hs, hjump.2 (hcase (· < 1) hlt), fun rs s' hrs hs' _ =>
      hPost rs s' hrs.1 hrs.2 hs'⟩

end

/-! ## Terms -/

/-- The cells of a value come on top of a frame with the variables of a scope. -/
def valuePre (quiet : Bool) (weight : Nat) (pre : Bound → (Cells → Prop) → Prop) : Pre Unit :=
  fun slots s Post => ∃ F ρ, Matches F slots s ∧ F.Represents ρ ∧ F.Small weight ∧
    pre ρ fun cs => ∀ slots' s', Matches (held .free cs ++ F) slots' s' →
      (quiet → s'.score = s.score) → Post () slots' s'

/-- The value on top of a frame with the variables of a scope becomes another one. -/
def shellPre {α : Type} (quiet : Bool) (weight : Nat) (shell : StackKind) (ofParts : α → Nbt)
    (pre : Bound → α → (α → Prop) → Prop) : Pre Unit :=
  fun slots s Post => ∃ F ρ v, Matches (held .free [(shell, ofParts v)] ++ F) slots s ∧
    F.Represents ρ ∧ F.Small (1 + weight) ∧ pre ρ v fun w => ∀ slots' s',
      Matches (held .free [(shell, ofParts w)] ++ F) slots' s' → (quiet → s'.score = s.score) →
        Post () slots' s'

theorem Frame.Small.push {F : Frame} {w w' : Nat} {cs : Cells} (h : F.Small w)
    (hle : cs.length + w' ≤ w) : (held .free cs ++ F).Small w' :=
  h.mono fun k => by
    have := length_held_le .free cs k
    rw [Frame.on_append, List.length_append]
    omega

theorem values_push_endTag {cs : Cells} (h : ∀ k ∈ cs.map (·.1), k = .endTag) (F : Frame) :
    (held .free cs ++ F).values = F.values := by
  induction cs using List.reverseRecOn with
  | nil => rfl
  | append_singleton cs e ih =>
    obtain ⟨k, v⟩ := e
    have hk : k = .endTag := h k (by simp)
    subst hk
    rw [Frame.held_append, Frame.append_assoc, values_held_endTag]
    exact ih fun k hk => h k (by rw [List.map_append]; exact List.mem_append_left _ hk)

section

variable {callees : Callees} (options : Options)

mutual

/-- Code for a term pushes the cells of its value and leaves everything else alone. -/
theorem emits_term : ∀ t : Term, Emits (callees.calls options) (term options t)
    (valuePre (isQuiet t) (termWeight t) (termPre callees t))
  | .literal ty l => by
    rw [term]
    refine ((Emits.ofExcept _).bind fun k => emits_push options k _).mono ?_
    rintro slots s Post ⟨F, ρ, hF, hρ, -, hPost⟩ k hk
    exact ⟨F, _, hF, fun _ => ⟨rfl, rfl⟩, fun slots' s' hF' hs' =>
      hPost k (oneSlot_ok hk).1 slots' s' hF' fun _ => hs'⟩
  | .array ty kind es => by
    rw [term]
    refine ((Emits.ofExcept _).bind fun k => (emits_push options k _).bind fun _ =>
      emits_arrayElements k kind 0 es).mono ?_
    rintro slots s Post ⟨F, ρ, hF, hρ, hsmall, hPost⟩ k hk
    obtain ⟨hk, hend⟩ := oneSlot_ok hk
    refine ⟨F, _, hF, fun _ => ⟨rfl, rfl⟩, fun slots₁ s₁ hF₁ hs₁ => ⟨hend, F, ρ, _, hF₁, hρ,
      hsmall.mono fun k => ?_, elementsPre_mono (fun w h slots₂ s₂ hF₂ hs₂ =>
        h slots₂ s₂ hF₂ fun hq => (hs₂ hq).trans hs₁) (hPost k hk)⟩⟩
    rw [termWeight]
    omega
  | .list _ es => by
    rw [term]
    refine ((emits_push options .list _).bind fun _ => emits_listElements es).mono ?_
    rintro slots s Post ⟨F, ρ, hF, hρ, hsmall, hPost⟩
    exact ⟨F, _, hF, fun _ => ⟨rfl, rfl⟩, fun slots₁ s₁ hF₁ hs₁ => ⟨F, ρ, _, hF₁, hρ,
      hsmall, listPre_mono (fun w h slots₂ s₂ hF₂ hs₂ =>
        h slots₂ s₂ hF₂ fun hq => (hs₂ hq).trans hs₁) hPost⟩⟩
  | .compound _ fields => by
    rw [term]
    refine ((emits_push options .compound _).bind fun _ => emits_compoundFields fields).mono ?_
    rintro slots s Post ⟨F, ρ, hF, hρ, hsmall, hPost⟩
    exact ⟨F, _, hF, fun _ => ⟨rfl, rfl⟩, fun slots₁ s₁ hF₁ hs₁ => ⟨F, ρ, _, hF₁, hρ,
      hsmall, fieldsPre_mono (fun w h slots₂ s₂ hF₂ hs₂ =>
        h slots₂ s₂ hF₂ fun hq => (hs₂ hq).trans hs₁) hPost⟩⟩
  | .ref .. => by
    rw [term]
    exact Emits.throw _ _
  | .tuple _ es => by
    rw [term]
    exact emits_terms es
  | .closure _ tag captures => by
    rw [term]
    refine ((emits_push options .compound _).bind fun _ => emits_storeCaptures captures).mono ?_
    rintro slots s Post ⟨F, ρ, hF, hρ, hsmall, hPost⟩
    exact ⟨F, _, hF, fun _ => ⟨rfl, rfl⟩, fun slots₁ s₁ hF₁ hs₁ => ⟨F, ρ, _, hF₁, hρ, hsmall,
      capturesPre_mono (fun w h slots₂ s₂ hF₂ hs₂ =>
        h slots₂ s₂ hF₂ fun _ => hs₂.trans hs₁) hPost⟩⟩
  | .branch ty c a thenName elseName => by
    rw [term]
    refine ((emits_term c).bind fun _ => (Emits.emit _).bind fun _ =>
      (emits_drop options .byte []).bind fun _ => (emits_term a).bind fun _ =>
        (emits_jump options thenName elseName).bind fun _ =>
          emits_returned options a.ty.erase ty).mono ?_
    rintro slots s Post ⟨F, ρ, hF, hρ, hsmall, h⟩
    refine ⟨F, ρ, hF, hρ, hsmall.mono fun k => by rw [termWeight]; omega, termPre_mono ?_ h⟩
    rintro cs - ⟨v, x, rfl, hx, h⟩ slots₁ s₁ hF₁ hs₁
    have hread : s₁.read (.slot .byte (-1)) = .ok v :=
      read_slot_cut (A := Frame.empty) hF₁.values (by decide) rfl
    refine leadsOne_of_apply rfl (State.apply_storeScore hread hx) ?_
    refine ⟨Frame.empty, .free, v, F, hF₁.of_stack (stack_setScore s₁ _ x), rfl, by decide,
      fun slots₂ s₂ hF₂ hs₂ => ?_⟩
    refine ⟨F, ρ, hF₂, hρ, hsmall.mono fun k => by rw [termWeight]; omega, termPre_mono ?_ h⟩
    rintro as - ⟨has, h⟩ slots₃ s₃ hF₃ hs₃
    refine ⟨as, F, ty, x, _, isQuiet a, hF₃.values, fun hq => ?_, h,
      fun rs s₄ hrs h hs₄ => ⟨as, rs, F, hF₃.uses, has, hrs, hs₄, fun slots₅ hF₅ =>
        h slots₅ s₄ hF₅ fun hq => absurd hq (by simp [isQuiet])⟩⟩
    change s₃.score .result = x
    rw [hs₃ hq, hs₂, score_setScore_self]
  | .letIn _ binder init body => by
    rw [term]
    refine ((emits_term init).bind fun _ => (emits_bind options binder).bind fun frame =>
      (emits_term body).bind fun _ => Emits.ite (p := binder.has .noDrop)
        (fun _ => Emits.follow _)
        fun _ => emits_dropAll options body.ty.erase frame.reverse).mono ?_
    rintro slots s Post ⟨F, ρ, hF, hρ, hsmall, hdrop, h⟩
    refine ⟨F, ρ, hF, hρ, hsmall.mono fun k => by rw [termWeight]; omega, termPre_mono ?_ h⟩
    rintro cs hcs h slots₁ s₁ hF₁ hs₁
    refine ⟨Frame.empty, cs, F, hF₁, rfl, hsmall.push (by rw [termWeight]; omega),
      binderPre_mono ?_ h⟩
    rintro copied kept hb h frame slots₂ s₂ hF₂ hs₂ hframe
    rw [Frame.append_empty] at hF₂
    have hsize : (ofBindings copied ++ ofBindings kept ++ F).Small (termWeight body) :=
      hsmall.mono fun k => by
        have h₁ := hb k
        have h₂ := length_held_le .free cs k
        rw [← Frame.length_held .free] at h₁
        simp only [Frame.ofBindings_append, Frame.on_append, List.length_append,
          termWeight] at h₁ ⊢
        omega
    have hscope : (ofBindings copied ++ ofBindings kept ++ F).Represents (copied ++ kept ++ ρ) := by
      rw [Frame.Represents, Frame.bound_append, Frame.bound_append, Frame.bound_ofBindings,
        Frame.bound_ofBindings, hρ, ← Frame.ofBindings_append, ← Frame.ofBindings_append]
    refine ⟨_, copied ++ kept ++ ρ, hF₂, hscope, hsize, termPre_mono ?_ h⟩
    rintro rs hrs ⟨hks, h⟩ slots₃ s₃ hF₃ hs₃
    refine ⟨fun hd => absurd hd (by simp [hdrop]), fun _ => ?_⟩
    rw [← Frame.append_assoc] at hF₃
    have hcount : ∀ k, ((held .free rs).on k).length = body.ty.erase.count k := fun k => by
      rw [Frame.length_held, hks]
    refine ⟨held .free rs, _, F, hF₃, hcount, fun k => ?_, fun k => ?_,
      fun slots₄ s₄ hF₄ hs₄ => h slots₄ s₄ hF₄ fun hq => ?_⟩
    · rw [List.count_reverse, hframe k, Frame.ofBindings_append]
    · have h₁ := hsize k
      have h₂ := length_held_le .free rs k
      rw [hcount] at h₂
      omega
    · rw [isQuiet, Bool.and_eq_true] at hq
      rw [hs₄, hs₃ hq.2, hs₂, hs₁ hq.1]
  | .var ty v => by
    rw [term]
    refine (emits_copySlots options v ty.erase []).mono ?_
    rintro slots s Post ⟨F, ρ, hF, hρ, hsmall, vs, hv, hks, hPost⟩
    refine ⟨F, ρ, [], vs, hF, hρ, hv, rfl, hks, ?_,
      fun slots' s' hF' hs' => hPost slots' s' hF' fun _ => hs'⟩
    rwa [termWeight, ← hks, List.length_map] at hsmall
  | .call ty name a => by
    rw [term]
    refine ((emits_term a).bind fun _ => (Emits.emit _).bind fun _ =>
      emits_returned options a.ty.erase ty).mono ?_
    rintro slots s Post ⟨F, ρ, hF, hρ, hsmall, h⟩
    refine ⟨F, ρ, hF, hρ, hsmall.mono fun k => by rw [termWeight]; omega, termPre_mono ?_ h⟩
    rintro as - ⟨has, h⟩ slots₁ s₁ hF₁ -
    exact ⟨name, false, as, F, _, rfl, hF₁.values, h, fun rs s₂ hrs hs₂ _ =>
      ⟨as, rs, F, hF₁.uses, has, hrs.1, hs₂, fun slots₃ hF₃ => hrs.2 slots₃ s₂ hF₃ fun hq =>
        absurd hq (by simp [isQuiet])⟩⟩
  | .test ty e p => by
    rw [term_test]
    refine ((emits_term e).bind fun _ => emits_answer options p).mono ?_
    rintro slots s Post ⟨F, ρ, hF, hρ, hsmall, h⟩
    refine ⟨F, ρ, hF, hρ, hsmall.mono fun k => by rw [termWeight]; omega, termPre_mono ?_ h⟩
    rintro cs - h slots₁ s₁ hF₁ -
    refine ⟨cs, F, hF₁, testerPre_mono (fun b h slots₂ s₂ hF₂ => ?_) h⟩
    exact h slots₂ s₂ hF₂ fun hq => absurd hq (by simp [isQuiet])
  | .command ty line => by
    rw [term]
    refine ((Emits.comment options _).bind fun _ => (Emits.emit _).bind fun _ =>
      Emits.follow _).mono ?_
    rintro slots s Post ⟨F, ρ, hF, hρ, hsmall, hends, h⟩
    have hks : (ty.erase.map fun k => (k, (default : Nbt))).map (·.1) = ty.erase := by
      simp [Function.comp_def]
    refine leadsOne_of_apply rfl rfl (h _ _ ⟨?_, ?_⟩ fun _ => funext fun r => by cases r <;> rfl)
    · have := Slots.uses_pushAll hF.uses (ty.erase.map fun k => (k, (default : Nbt)))
      rwa [hks] at this
    · rw [values_push_endTag (by rw [hks]; exact hends)]
      exact hF.values

theorem emits_terms : ∀ ts : List Term, Emits (callees.calls options) (terms options ts)
    (valuePre (areQuiet ts) (termsWeight ts) (termsPre callees ts))
  | [] => by
    rw [terms]
    refine (Emits.pure _).mono ?_
    rintro slots s Post ⟨F, ρ, hF, -, -, hPost⟩
    exact hPost slots s hF fun _ => rfl
  | t :: ts => by
    rw [terms]
    refine ((emits_term t).bind fun _ => emits_terms ts).mono ?_
    rintro slots s Post ⟨F, ρ, hF, hρ, hsmall, h⟩
    refine ⟨F, ρ, hF, hρ, hsmall.mono fun k => by rw [termsWeight]; omega, termPre_mono ?_ h⟩
    intro cs hcs h slots₁ s₁ hF₁ hs₁
    refine ⟨_, ρ, hF₁, hρ.push cs, hsmall.push (by rw [termsWeight]; omega), termsPre_mono ?_ h⟩
    intro ds _ h slots₂ s₂ hF₂ hs₂
    rw [← Frame.append_assoc, ← Frame.held_append] at hF₂
    refine h slots₂ s₂ hF₂ fun hq => ?_
    rw [areQuiet, Bool.and_eq_true] at hq
    rw [hs₂ hq.2, hs₁ hq.1]

theorem emits_arrayElements (shell : StackKind) (kind : ArrayKind) (index : Nat) :
    ∀ ts : List Term, Emits (callees.calls options)
      (arrayElements options shell kind index ts) fun slots s Post => shell ≠ .endTag ∧
        shellPre (areQuiet ts) (termsWeight ts) shell id
          (fun ρ v => elementsPre callees shell kind index ts ρ v) slots s Post
  | [] => by
    rw [arrayElements]
    refine (Emits.pure _).mono ?_
    rintro slots s Post ⟨-, F, ρ, v, hF, -, -, hPost⟩
    exact hPost slots s hF fun _ => rfl
  | t :: ts => by
    rw [arrayElements]
    refine (Emits.ite (p := (constant? kind t).isNone) (fun _ => (Emits.ofExcept _).bind fun k =>
      (emits_term t).bind fun _ => (Emits.emit _).bind fun _ =>
        (emits_drop options k []).bind fun _ => emits_arrayElements shell kind (index + 1) ts)
      fun _ => emits_arrayElements shell kind (index + 1) ts).mono ?_
    rintro slots s Post ⟨hend, F, ρ, v, hF, hρ, hsmall, h⟩
    rw [elementsPre] at h
    refine ⟨fun hc k hk => ?_, fun hc => ?_⟩
    · rw [if_pos hc] at h
      obtain ⟨hk, hkend⟩ := oneSlot_ok hk
      refine ⟨_, ρ, hF, hρ.push _, hsmall.push ?_, termPre_mono ?_ (h k hk)⟩
      · rw [termsWeight, List.length_singleton]
        omega
      rintro cs - ⟨e, w, rfl, hne, hw, h⟩ slots₁ s₁ hF₁ hs₁
      have hread : s₁.read (.slot k (-1)) = .ok e :=
        read_slot_cut (A := Frame.empty) hF₁.values hkend rfl
      rw [← Frame.append_assoc] at hF₁
      have hdepth : ((held .free [(k, e)]).on shell).length = 0 := by
        rw [Frame.on_held_singleton, if_neg hne, List.length_nil]
      obtain ⟨s₂, hs₂, hvalues, hscore⟩ := write_part_cut (i := -1)
        (n := .index (Int32.ofNat index)) (x := e) hF₁.values hend (by rw [hdepth]; rfl) hw
      refine leadsOne_of_apply (t := s₂) ?_ ?_ ?_
      · exact Instruction.isRelative_set (isRelative_slot (d := 0) rfl shell [.index _])
          (isRelative_slot (d := 0) rfl k [])
      · rw [State.apply_set_copy hread, DataPath.element_slot]
        exact hs₂
      have hF₂ := hF₁.replace hvalues
      rw [Frame.append_assoc] at hF₂
      refine ⟨Frame.empty, .free, e, _, hF₂, rfl, by simp, fun slots₃ s₃ hF₃ hs₃ => ?_⟩
      refine ⟨hend, F, ρ, w, hF₃, hρ, hsmall.mono fun k => by rw [termsWeight]; omega,
        elementsPre_mono (fun u h slots₄ s₄ hF₄ hs₄ => h slots₄ s₄ hF₄ fun hq => ?_) h⟩
      rw [areQuiet, Bool.and_eq_true] at hq
      rw [hs₄ hq.2, hs₃, hscore, hs₁ hq.1]
    · rw [if_neg hc] at h
      refine ⟨hend, F, ρ, v, hF, hρ, hsmall.mono fun k => by rw [termsWeight]; omega,
        elementsPre_mono (fun u h slots₁ s₁ hF₁ hs₁ => h slots₁ s₁ hF₁ fun hq => ?_) h⟩
      rw [areQuiet, Bool.and_eq_true] at hq
      exact hs₁ hq.2

theorem emits_listElements : ∀ ts : List Term, Emits (callees.calls options)
    (listElements options ts) (shellPre (areQuiet ts) (termsWeight ts) .list .list
      fun ρ vs => listPre callees ts ρ vs)
  | [] => by
    rw [listElements]
    refine (Emits.pure _).mono ?_
    rintro slots s Post ⟨F, ρ, v, hF, -, -, hPost⟩
    exact hPost slots s hF fun _ => rfl
  | t :: ts => by
    rw [listElements]
    refine ((Emits.ofExcept _).bind fun k => (emits_term t).bind fun _ =>
      (Emits.emit _).bind fun _ => (emits_drop options k []).bind fun _ =>
        emits_listElements ts).mono ?_
    rintro slots s Post ⟨F, ρ, vs, hF, hρ, hsmall, h⟩ k hk
    obtain ⟨hk, hkend⟩ := oneSlot_ok hk
    refine ⟨_, ρ, hF, hρ.push _, hsmall.push ?_, termPre_mono ?_ (h k hk)⟩
    · rw [termsWeight, List.length_singleton]
      omega
    rintro cs - ⟨e, rfl, h⟩ slots₁ s₁ hF₁ hs₁
    have hread : s₁.read (.slot k (-1)) = .ok e :=
      read_slot_cut (A := Frame.empty) hF₁.values hkend rfl
    rw [← Frame.append_assoc] at hF₁
    have hunder : (under .list k).toInt =
        -1 - (((held .free [(k, e)]).on .list).length : Int) := by
      rw [Frame.on_held_singleton, under]
      split <;> rfl
    obtain ⟨s₂, hs₂, hvalues, hscore⟩ := change_cut hF₁.values (by decide) hunder
      (f := Machine.appended (.mismatch (.slot .list (under .list k))) e) rfl
    refine leadsOne_of_apply (t := s₂) ?_ ?_ ?_
    · exact Instruction.isRelative_append (isRelative_slot hunder .list [])
        (isRelative_slot (d := 0) rfl k [])
    · rw [State.apply, State.source, hread]
      exact hs₂
    have hF₂ := hF₁.replace hvalues
    rw [Frame.append_assoc] at hF₂
    refine ⟨Frame.empty, .free, e, _, hF₂, rfl, by simp, fun slots₃ s₃ hF₃ hs₃ => ?_⟩
    refine ⟨F, ρ, _, hF₃, hρ, hsmall.mono fun k => by rw [termsWeight]; omega,
      listPre_mono (fun u h slots₄ s₄ hF₄ hs₄ => h slots₄ s₄ hF₄ fun hq => ?_) h⟩
    rw [areQuiet, Bool.and_eq_true] at hq
    rw [hs₄ hq.2, hs₃, hscore, hs₁ hq.1]

theorem emits_compoundFields : ∀ fields : List (String × Term), Emits (callees.calls options)
    (compoundFields options fields) (shellPre (fieldsAreQuiet fields) (fieldsWeight fields)
      .compound .compound fun ρ vs => fieldsPre callees fields ρ vs)
  | [] => by
    rw [compoundFields]
    refine (Emits.pure _).mono ?_
    rintro slots s Post ⟨F, ρ, v, hF, -, -, hPost⟩
    exact hPost slots s hF fun _ => rfl
  | (key, t) :: rest => by
    rw [compoundFields]
    refine ((Emits.ofExcept _).bind fun k => (emits_term t).bind fun _ =>
      (Emits.emit _).bind fun _ => (emits_drop options k []).bind fun _ =>
        emits_compoundFields rest).mono ?_
    rintro slots s Post ⟨F, ρ, vs, hF, hρ, hsmall, h⟩ k hk
    obtain ⟨hk, hkend⟩ := oneSlot_ok hk
    refine ⟨_, ρ, hF, hρ.push _, hsmall.push ?_, termPre_mono ?_ (h k hk)⟩
    · rw [fieldsWeight, List.length_singleton]
      omega
    rintro cs - ⟨e, rfl, h⟩ slots₁ s₁ hF₁ hs₁
    have hread : s₁.read (.slot k (-1)) = .ok e :=
      read_slot_cut (A := Frame.empty) hF₁.values hkend rfl
    rw [← Frame.append_assoc] at hF₁
    have hunder : (under .compound k).toInt =
        -1 - (((held .free [(k, e)]).on .compound).length : Int) := by
      rw [Frame.on_held_singleton, under]
      split <;> rfl
    obtain ⟨s₂, hs₂, hvalues, hscore⟩ := write_part_cut (n := .key key) (x := e)
      hF₁.values (by decide) hunder fun _ => rfl
    refine leadsOne_of_apply (t := s₂) ?_ ?_ ?_
    · exact Instruction.isRelative_set (isRelative_slot hunder .compound [.key key])
        (isRelative_slot (d := 0) rfl k [])
    · rw [State.apply_set_copy hread, DataPath.field_slot]
      exact hs₂
    have hF₂ := hF₁.replace hvalues
    rw [Frame.append_assoc] at hF₂
    refine ⟨Frame.empty, .free, e, _, hF₂, rfl, by simp, fun slots₃ s₃ hF₃ hs₃ => ?_⟩
    refine ⟨F, ρ, _, hF₃, hρ, hsmall.mono fun k => by rw [fieldsWeight]; omega,
      fieldsPre_mono (fun u h slots₄ s₄ hF₄ hs₄ => h slots₄ s₄ hF₄ fun hq => ?_) h⟩
    rw [fieldsAreQuiet, Bool.and_eq_true] at hq
    rw [hs₄ hq.2, hs₃, hscore, hs₁ hq.1]

end

end

/-! ## Functions -/

section

variable {callees : Callees} (options : Options)

theorem emits_restore {c : Calls} (restore : Option Int32) :
    Emits c (match restore with
      | some n => emit (.setScore .result n)
      | none => pure ()) fun slots s Post =>
        ∀ s', s'.stack = s.stack → (∀ n, restore = some n → s'.result = n) → Post () slots s' := by
  cases restore with
  | none => exact (Emits.pure ()).mono fun slots s Post h => h s rfl fun n hn => by cases hn
  | some n =>
    refine (Emits.emit _).mono fun slots s Post h => ?_
    exact leadsOne_of_apply (t := s.setScore .result n) rfl rfl
      (h _ (stack_setScore s _ n) fun m hm => by cases hm; rfl)

/-- What a function does up to its result, whatever it does then: it is started on the slots of the
argument alone, and leaves the cells of the variables of its binder under those of the value of its
body. -/
theorem emits_entered {α : Type} (f : Flat.Function) {leave : List StackKind → EmitM α}
    {pre : List StackKind → Pre α}
    (hleave : ∀ frame, Emits (callees.calls options) (leave frame) (pre frame)) :
    Emits (callees.calls options) (do
      comment options ("function " ++ f.name.text)
      follow (·.pushAll f.binder.ty.erase)
      let frame ← bind options f.binder
      term options f.body
      leave frame) fun slots s Post =>
        ∃ args, ∃ Q : Bound → Cells → Prop, slots.stack = Frame.empty.uses ∧
          s.stack = (held .free args).values ∧ functionWeight f < 2 ^ 31 ∧
            args.map (·.1) = f.binder.ty.erase ∧
            (binderPre f.binder args fun copied kept =>
              termPre callees f.body (copied ++ kept) (Q (copied ++ kept))) ∧
            ∀ b rs frame slots' s', Q b rs → rs.length ≤ termWeight f.body →
              (ofBindings b).Small (termWeight f.body) →
                (∀ k, frame.count k = ((ofBindings b).on k).length) →
                  Matches (held .free rs ++ ofBindings b) slots' s' → pre frame slots' s' Post := by
  refine ((Emits.comment options _).bind fun _ => (Emits.follow _).bind fun _ =>
    (emits_bind options f.binder).bind fun frame => (emits_term options f.body).bind fun _ =>
      hleave frame).mono ?_
  rintro slots s Post ⟨args, Q, huses, hvalues, hweight, hargs, h, hPost⟩
  rw [functionWeight] at hweight
  have hlen : args.length = f.binder.ty.erase.length := by rw [← hargs, List.length_map]
  have hF : Matches (Frame.empty ++ held .free args ++ Frame.empty)
      (slots.pushAll f.binder.ty.erase) s := by
    refine ⟨?_, by simpa using hvalues⟩
    rw [← hargs]
    simpa using Slots.uses_pushAll huses args
  have hsmall : (Frame.empty ++ held .free args ++ Frame.empty).Small
      (patternWeight f.binder + termWeight f.body) := fun k => by
    have := length_held_le .free args k
    simp only [Frame.empty_append, Frame.append_empty]
    omega
  refine ⟨Frame.empty, args, Frame.empty, hF, rfl, hsmall.mono fun k => by omega,
    binderPre_mono ?_ h⟩
  rintro copied kept hbound h frame slots₁ s₁ hF₁ hs₁ hframe
  simp only [Frame.append_empty] at hF₁ hsmall
  rw [← Frame.ofBindings_append] at hF₁
  have hsize : (ofBindings (copied ++ kept)).Small (termWeight f.body) :=
    hsmall.mono fun k => by
      have h₁ := hbound k
      rw [← Frame.length_held .free] at h₁
      simp only [Frame.empty_append] at h₁ ⊢
      omega
  refine ⟨_, copied ++ kept, hF₁, Frame.bound_ofBindings _, hsize, termPre_mono ?_ h⟩
  rintro rs hrs hQ slots₂ s₂ hF₂ -
  exact hPost _ rs frame slots₂ s₂ hQ hrs hsize hframe hF₂

/-- Code for a function, started on the slots of the argument alone, ends with the slots of the
result alone, and with the result register as the function restores it. -/
theorem emits_functionBody (f : Flat.Function) :
    Emits (callees.calls options) (functionBody options f) fun slots s Post =>
      ∃ args Q, slots.stack = Frame.empty.uses ∧ s.stack = (held .free args).values ∧
        functionWeight f < 2 ^ 31 ∧ functionPre callees f args Q ∧ ∀ rs slots' s', Q rs →
          s'.stack = (held .free rs).values → (∀ n, f.restore = some n → s'.result = n) →
            Post () slots' s' := by
  refine (emits_entered options f fun frame =>
    Emits.ite (p := f.has .noDrop || f.binder.has .noDrop)
      (fun _ => (Emits.ask _).bind fun _ => emits_restore f.restore)
      fun _ => (emits_dropAll options f.result.erase frame.reverse).bind fun _ =>
        (Emits.ask _).bind fun _ => emits_restore f.restore).mono ?_
  rintro slots s Post ⟨args, Q, huses, hvalues, hweight, ⟨hf, hb, hargs, h⟩, hPost⟩
  refine ⟨args, fun _ rs => rs.map (·.1) = f.result.erase ∧ Q rs, huses, hvalues, hweight, hargs,
    h, ?_⟩
  rintro b rs frame slots₁ s₁ ⟨hks, hQ⟩ hrs hsize hframe hF₁
  refine ⟨fun hd => absurd hd (by simp [hf, hb]), fun _ => ?_⟩
  have hcount : ∀ k, ((held .free rs).on k).length = f.result.erase.count k := fun k => by
    rw [Frame.length_held, hks]
  rw [← Frame.append_empty (held .free rs ++ _)] at hF₁
  refine ⟨held .free rs, _, Frame.empty, hF₁, hcount, fun k => ?_, fun k => ?_,
    fun slots₂ s₂ hF₂ _ _ _ s₃ hs₃ hrestore => hPost rs slots₂ s₃ hQ ?_ hrestore⟩
  · rw [List.count_reverse, hframe k]
  · have h₁ := hsize k
    have h₂ := length_held_le .free rs k
    rw [hcount] at h₂
    omega
  · rw [hs₃, hF₂.values, Frame.append_empty]

/-- Instructions of a function meet what its code does from no slots at all. -/
theorem leads_of_emits {c : Calls} {f : Flat.Function} {pre : Pre Unit} {is : List Instruction}
    {s : State} {P : State → Prop} (h : function options f = .ok is)
    (hemits : Emits c (functionBody options f) pre)
    (hpre : ∀ slots, slots.stack = Frame.empty.uses → pre slots s fun _ _ => P) :
    leads c is s P := by
  obtain ⟨⟨u, o⟩, hrun, ho⟩ := Except.bind_ok.1 h
  cases ho
  obtain ⟨js, hjs, hleads⟩ := hemits _ _ _ hrun
  have his : o.instructions.toList = js := hjs
  have hempty : Slots.empty.stack = Frame.empty.uses :=
    funext fun k => by simp [Slots.empty, Slots.stack, Frame.uses]
  rw [his]
  exact hleads s (fun _ _ => P) (hpre _ hempty)

/-- The instructions of a function lead from its argument to its result. -/
theorem leads_function {f : Flat.Function} {is : List Instruction} {s : State} {args : Cells}
    {Q : Cells → Prop} (h : function options f = .ok is) (hweight : functionWeight f < 2 ^ 31)
    (hs : s.stack = (held .free args).values) (hpre : functionPre callees f args Q) :
    leads (callees.calls options) is s fun s' => ∃ rs, Q rs ∧
      s'.stack = (held .free rs).values ∧ ∀ n, f.restore = some n → s'.result = n :=
  leads_of_emits options h (emits_functionBody options f) fun _ hslots =>
    ⟨args, Q, hslots, hs, hweight, hpre, fun rs _ _ hrs hs' hr => ⟨rs, hrs, hs', hr⟩⟩

end

end Stagecraft.Emit
