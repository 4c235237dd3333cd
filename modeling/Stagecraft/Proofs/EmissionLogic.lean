import Mathlib.Data.List.Induction
import Stagecraft.Proofs.CellSemantics
import Stagecraft.Proofs.Except

/-!
# A logic for emission

`Emits` relates a computation that emits instructions to a weakest precondition: the instructions
it adds lead from the model and the state before it to a condition on its answer, the model and the
state after it. The model is known while code is emitted and the state only when it runs, so the
instructions come first and then a statement on all states.

There is one rule for sequencing (`Emits.bind`), one for each primitive, and one for weakening
(`Emits.mono`). The rules of the slot primitives are stated on frames.
-/

namespace Stagecraft.Emit

open Target (StackKind Nbt Location Instruction DataPath Source Register)
open Machine (State Calls leads leadsOne leads_append leads_mono leadsOne_of_apply)
open Emit.Frame (held ofBindings)

/-- A precondition, as a function of the condition that is to hold afterwards. -/
abbrev Pre (α : Type) := Slots → State → (α → Slots → State → Prop) → Prop

/-- The instructions that a computation adds lead from its precondition to any condition. -/
def Emits {α : Type} (c : Calls) (x : EmitM α) (pre : Pre α) : Prop :=
  ∀ o a o', x o = .ok (a, o') → ∃ is, o'.instructions.toList = o.instructions.toList ++ is ∧
    ∀ s Post, pre o.slots s Post → leads c is s fun s => Post a o'.slots s

namespace Emits

variable {α β : Type} {c : Calls}

theorem mono {x : EmitM α} {P P' : Pre α} (h : Emits c x P)
    (hP : ∀ slots s Post, P' slots s Post → P slots s Post) : Emits c x P' := by
  intro o a o' hx
  obtain ⟨is, hi, hl⟩ := h o a o' hx
  exact ⟨is, hi, fun s Post hs => hl s Post (hP _ s Post hs)⟩

theorem bind {x : EmitM α} {f : α → EmitM β} {P : Pre α} {P' : α → Pre β} (hx : Emits c x P)
    (hf : ∀ a, Emits c (f a) (P' a)) :
    Emits c (x >>= f) fun slots s Post => P slots s fun a slots s => P' a slots s Post := by
  intro o b o'' h
  change (x o >>= fun r => f r.1 r.2) = .ok (b, o'') at h
  cases hr : x o with
  | error e =>
    rw [hr] at h
    cases h
  | ok r =>
    rw [hr] at h
    obtain ⟨is, hi, hl⟩ := hx o r.1 r.2 hr
    obtain ⟨js, hj, hl'⟩ := hf r.1 r.2 b o'' h
    refine ⟨is ++ js, by rw [hj, hi, List.append_assoc], fun s Post hs => ?_⟩
    exact leads_append.2 (leads_mono (fun s => hl' s Post) (hl s _ hs))

theorem pure (a : α) : Emits c (Pure.pure a) fun slots s Post => Post a slots s := by
  intro o b o' h
  cases h
  exact ⟨[], (List.append_nil _).symm, fun _ _ h => h⟩

theorem throw (e : Error) (P : Pre α) : Emits c (throw e : EmitM α) P := by
  intro o b o' h
  cases h

/-- Computations that do not look at the output only have an answer if they go through. -/
theorem ofExcept (x : Except Error α) :
    Emits c (liftM x) fun slots s Post => ∀ a, x = .ok a → Post a slots s := by
  intro o a o' h
  cases x with
  | error e => cases h
  | ok b =>
    cases h
    exact ⟨[], (List.append_nil _).symm, fun _ _ h => h _ rfl⟩

theorem get : Emits c (MonadState.get : EmitM Output) fun slots s Post =>
    ∀ o : Output, o.slots = slots → Post o slots s := by
  intro o a o' h
  cases h
  exact ⟨[], (List.append_nil _).symm, fun _ _ h => h o rfl⟩

theorem emit (i : Instruction) : Emits c (emit i) fun slots s Post =>
    leadsOne c i s fun s => Post () slots s := by
  intro o a o' h
  cases h
  exact ⟨[i], Array.toList_push, fun _ _ h => h⟩

theorem ask (f : Slots → Except Error α) : Emits c (ask f) fun slots s Post =>
    ∀ a, f slots = .ok a → Post a slots s :=
  (get.bind fun o => ofExcept (f o.slots)).mono fun _ _ _ h _ ho a ha => h a (ho ▸ ha)

theorem follow (f : Slots → Slots) : Emits c (follow f) fun slots s Post =>
    Post () (f slots) s := by
  intro o a o' h
  cases h
  exact ⟨[], (List.append_nil _).symm, fun _ _ h => h⟩

theorem tryFollow (f : Slots → Except Error Slots) : Emits c (tryFollow f) fun slots s Post =>
    ∀ slots', f slots = .ok slots' → Post () slots' s := by
  intro o a o' h
  cases hf : f o.slots with
  | error e =>
    have : Emit.tryFollow f o = .error e := by
      change (liftM (f o.slots) >>= fun slots => set { o with slots } : EmitM Unit) o = .error e
      rw [hf]
      rfl
    rw [this] at h
    cases h
  | ok slots =>
    have : Emit.tryFollow f o = .ok ((), { o with slots }) := by
      change (liftM (f o.slots) >>= fun slots => set { o with slots } : EmitM Unit) o = .ok _
      rw [hf]
      rfl
    rw [this] at h
    cases h
    exact ⟨[], (List.append_nil _).symm, fun _ _ h => h slots hf⟩

theorem ite {p : Prop} [Decidable p] {x y : EmitM α} {P P' : Pre α} (hx : p → Emits c x P)
    (hy : ¬p → Emits c y P') :
    Emits c (if p then x else y) fun slots s Post =>
      (p → P slots s Post) ∧ (¬p → P' slots s Post) := by
  by_cases h : p
  · rw [if_pos h]
    exact (hx h).mono fun _ _ _ hs => hs.1 h
  · rw [if_neg h]
    exact (hy h).mono fun _ _ _ hs => hs.2 h

theorem ite_pos {p : Prop} [Decidable p] {x y : EmitM α} {P : Pre α} (hp : p)
    (hx : Emits c x P) : Emits c (if p then x else y) P := by
  rwa [if_pos hp]

/-- A computation that fails without an answer to a look-up. -/
theorem option {x : Option α} {y : EmitM β} {P : α → Pre β}
    (hn : x = none → ∃ e, y = MonadExcept.throw e) (hs : ∀ a, x = some a → Emits c y (P a)) :
    Emits c y fun slots s Post => ∀ a, x = some a → P a slots s Post := by
  cases x with
  | none =>
    obtain ⟨e, rfl⟩ := hn rfl
    exact throw e _
  | some a => exact (hs a rfl).mono fun _ _ _ h => h a rfl

theorem comment (options : Options) (line : String) :
    Emits c (comment options line) fun slots s Post => Post () slots s :=
  (ite (fun _ => emit _) fun _ => pure ()).mono fun _ _ _ h =>
    ⟨fun _ => leadsOne_of_apply rfl rfl h, fun _ => h⟩

end Emits

/-! ## Slot primitives -/

theorem remove_ok {slots slots' : Slots} {k : StackKind} {i : Int32}
    (h : (do return (← slots.remove k i).2 : Except Error Slots) = .ok slots') :
    ∃ slot, slots.remove k i = .ok (slot, slots') := by
  cases hr : slots.remove k i with
  | error e =>
    rw [hr] at h
    cases h
  | ok r =>
    rw [hr] at h
    cases h
    exact ⟨r.1, rfl⟩

theorem values_held_endTag (use : Slot) (v : Nbt) (F : Frame) :
    (held use [(.endTag, v)] ++ F).values = F.values := by
  funext k
  by_cases hk : k = .endTag
  · simp [Frame.values, hk]
  · simp [Frame.values, hk, Frame.on_held_singleton, Ne.symm hk]

theorem values_cut_endTag (A R : Frame) (use : Slot) (v : Nbt) :
    (A ++ held use [(.endTag, v)] ++ R).values = (A ++ R).values := by
  funext k
  rw [Frame.append_assoc, Frame.values_append, values_held_endTag, Frame.values_append]

section

variable {c : Calls} (options : Options)

theorem emits_push (k : StackKind) (src : Source) :
    Emits c (push options k src) fun slots s Post => ∃ F v, Matches F slots s ∧
      (k ≠ .endTag → src.isRelative ∧ s.source src = .ok v) ∧
        ∀ slots' s', Matches (held .free [(k, v)] ++ F) slots' s' → s'.score = s.score →
          Post () slots' s' := by
  refine (Emits.ite (p := k ≠ .endTag)
    (fun _ => (Emits.comment options _).bind fun _ =>
      (Emits.emit _).bind fun _ => Emits.follow _) fun _ => Emits.follow _).mono ?_
  rintro slots s Post ⟨F, v, hF, hsrc, hPost⟩
  have huses := Slots.uses_push hF.uses k v
  refine ⟨fun hk => ?_, fun hk => ?_⟩
  · obtain ⟨hrel, hv⟩ := hsrc hk
    refine leadsOne_of_apply (t := s.push k v) ?_ ?_ ?_
    · simpa [Instruction.isRelative, DataPath.whole] using hrel
    · rw [State.apply, hv]
      rfl
    · exact hPost _ _ ⟨huses, values_push hF.values hk v⟩ (funext fun r => by cases r <;> rfl)
  · have hk : k = .endTag := not_not.1 hk
    subst hk
    exact hPost _ _ ⟨huses, by rw [hF.values, values_held_endTag]⟩ rfl

theorem emits_removeAt (k : StackKind) (i : Int32) (keeps : List StackKind) :
    Emits c (removeAt options k i keeps) fun slots s Post => ∃ A use v R,
      Matches (A ++ held use [(k, v)] ++ R) slots s ∧ i.toInt = -1 - ((A.on k).length : Int) ∧
        ∀ slots' s', Matches (A ++ R) slots' s' → s'.score = s.score → Post () slots' s' := by
  refine ((Emits.tryFollow _).bind fun _ => Emits.ite (p := k ≠ .endTag)
    (fun _ => (Emits.comment options _).bind fun _ => Emits.emit _) fun _ => Emits.pure ()).mono ?_
  rintro slots s Post ⟨A, use, v, R, hF, hi, hPost⟩ slots' hr
  have huses : slots'.stack = (A ++ R).uses := by
    obtain ⟨slot, hrem⟩ := remove_ok hr
    exact Slots.uses_remove hF.uses hi hrem
  refine ⟨fun hk => ?_, fun hk => ?_⟩
  · obtain ⟨s', hs', hvalues, hscore⟩ := remove_cut hF.values hk hi
    exact leadsOne_of_apply (isRelative_slot hi k []) hs' (hPost _ _ ⟨huses, hvalues⟩ hscore)
  · have hk : k = .endTag := not_not.1 hk
    subst hk
    exact hPost _ _ ⟨huses, by rw [hF.values, values_cut_endTag]⟩ rfl

theorem emits_drop (k : StackKind) (keeps : List StackKind) :
    Emits c (drop options k keeps) fun slots s Post => ∃ A use v R,
      Matches (A ++ held use [(k, v)] ++ R) slots s ∧ (A.on k).length = keeps.count k ∧
        keeps.count k < 2 ^ 31 ∧
          ∀ slots' s', Matches (A ++ R) slots' s' → s'.score = s.score → Post () slots' s' :=
  (emits_removeAt options k _ keeps).mono fun _ _ _ ⟨A, use, v, R, hF, hA, hlt, hPost⟩ =>
    ⟨A, use, v, R, hF, by rw [toInt_fromTop hlt, hA], hPost⟩

/-- A stack that is not empty has a topmost slot, which can be split off. -/
theorem Frame.exists_top {B : Frame} {k : StackKind} (h : 0 < (B.on k).length) :
    ∃ use v B', B = held use [(k, v)] ++ B' := by
  cases hk : B.on k with
  | nil => simp [hk] at h
  | cons e rest =>
    refine ⟨e.1, e.2, ⟨fun j => if k = j then rest else B.on j⟩, ext_on fun j => ?_⟩
    by_cases hj : k = j
    · subst hj
      simp [on_held_singleton, hk]
    · simp [on_held_singleton, hj]

/-- The slots of a piece are dropped under a value that lies on top of it. -/
theorem emits_dropAll (keeps : List StackKind) : ∀ ks : List StackKind,
    Emits c (dropAll options keeps ks) fun slots s Post => ∃ C B R,
      Matches (C ++ B ++ R) slots s ∧ (∀ k, (C.on k).length = keeps.count k) ∧
        (∀ k, (B.on k).length = ks.count k) ∧ (∀ k, keeps.count k < 2 ^ 31) ∧
          ∀ slots' s', Matches (C ++ R) slots' s' → s'.score = s.score → Post () slots' s'
  | [] => (Emits.pure ()).mono fun slots s Post ⟨C, B, R, hF, _, hB, _, hPost⟩ => by
    have : B = Frame.empty := Frame.ext_on fun k => List.length_eq_zero_iff.1 (hB k)
    subst this
    exact hPost slots s (by simpa using hF) rfl
  | k :: ks => by
    refine ((emits_drop options k keeps).bind fun _ => emits_dropAll keeps ks).mono ?_
    rintro slots s Post ⟨C, B, R, hF, hC, hB, hlt, hPost⟩
    obtain ⟨use, v, B', rfl⟩ := Frame.exists_top (B := B) (k := k) (by rw [hB]; simp)
    rw [← Frame.append_assoc, Frame.append_assoc] at hF
    refine ⟨C, use, v, B' ++ R, hF, hC k, hlt k, fun slots' s' hF' hs' => ?_⟩
    rw [← Frame.append_assoc] at hF'
    refine ⟨C, B', R, hF', hC, fun j => ?_, hlt, fun slots'' s'' hF'' hs'' =>
      hPost slots'' s'' hF'' (hs''.trans hs')⟩
    have h := hB j
    rw [Frame.on_append, List.length_append, Frame.on_held_singleton, List.count_cons] at h
    by_cases hj : k = j <;> simp [hj] at h <;> omega

/-- The cells of a value can be taken off a frame from the last one. -/
theorem Frame.held_concat (use : Slot) (cs : Cells) (k : StackKind) (v : Nbt) (U R : Frame) :
    U ++ held use (cs ++ [(k, v)]) ++ R = U ++ held use [(k, v)] ++ (held use cs ++ R) := by
  rw [held_append, ← append_assoc, append_assoc]

theorem emits_claimAll (l : Nat) (ks : List StackKind) :
    Emits c (claimAll l ks) fun slots s Post => ∃ U cs R,
      Matches (U ++ held .free cs ++ R) slots s ∧ U.bound = U ∧ cs.map (·.1) = ks ∧
        ∀ slots', Matches (U ++ held (.bound l) cs ++ R) slots' s → Post () slots' s := by
  refine (Emits.tryFollow _).mono ?_
  rintro slots s Post ⟨U, cs, R, hF, hU, hks, hPost⟩ slots' hc
  refine hPost slots' ⟨?_, ?_⟩
  · have huses := hF.uses
    clear hF hPost
    subst hks
    induction cs using List.reverseRecOn generalizing U slots with
    | nil =>
      cases hc
      exact huses
    | append_singleton cs e ih =>
      obtain ⟨k, v⟩ := e
      rw [Frame.held_concat] at huses
      simp only [List.map_append, List.map_cons, List.map_nil, List.reverse_append,
        List.reverse_cons, List.reverse_nil, List.nil_append, List.singleton_append,
        List.foldlM_cons] at hc
      obtain ⟨slots₁, hclaim, hc⟩ := Except.bind_ok.1 hc
      have h₁ := Slots.uses_claim hU huses hclaim
      rw [← Frame.append_assoc] at h₁
      have := ih _ (U ++ held (.bound l) [(k, v)]) (by simp [hU]) h₁ hc
      rw [this, Frame.held_concat, Frame.append_assoc]
  · rw [hF.values]
    funext k
    rw [Frame.values_append, Frame.values_append, Frame.values_append, Frame.values_append,
      Frame.values_held (.bound l) .free]

theorem emits_removeFree (k : StackKind) :
    Emits c (removeFree options k) fun slots s Post => ∃ U v R,
      Matches (U ++ held .free [(k, v)] ++ R) slots s ∧ U.bound = U ∧
        ((U ++ held .free [(k, v)] ++ R).on k).length < 2 ^ 31 ∧
          ∀ slots' s', Matches (U ++ R) slots' s' → s'.score = s.score → Post () slots' s' := by
  refine ((Emits.ask _).bind fun _ => Emits.get.bind fun _ => emits_removeAt options k _ _).mono ?_
  rintro slots s Post ⟨U, v, R, hF, hU, hlt, hPost⟩ position hp o rfl
  rw [Slots.lastFree_eq hU hF.uses] at hp
  cases hp
  exact ⟨U, .free, v, R, hF, Slots.toInt_relative_eq hF.uses hlt, hPost⟩

theorem emits_removeFreeAll : ∀ ks : List StackKind,
    Emits c (removeFreeAll options ks) fun slots s Post => ∃ U cs R,
      Matches (U ++ held .free cs ++ R) slots s ∧ U.bound = U ∧ cs.map (·.1) = ks.reverse ∧
        (∀ k, ((U ++ held .free cs ++ R).on k).length < 2 ^ 31) ∧
          ∀ slots' s', Matches (U ++ R) slots' s' → s'.score = s.score → Post () slots' s'
  | [] => (Emits.pure ()).mono fun slots s Post ⟨U, cs, R, hF, _, hks, _, hPost⟩ => by
    have : cs = [] := by simpa using hks
    subst this
    exact hPost slots s (by simpa using hF) rfl
  | k :: ks => by
    refine ((emits_removeFree options k).bind fun _ => emits_removeFreeAll ks).mono ?_
    rintro slots s Post ⟨U, cs, R, hF, hU, hks, hlt, hPost⟩
    rw [List.reverse_cons, List.map_eq_append_iff] at hks
    obtain ⟨cs, es, rfl, hcs, hes⟩ := hks
    obtain ⟨⟨j, v⟩, rfl, rfl⟩ := List.map_eq_singleton_iff.1 hes
    rw [Frame.held_concat] at hF hlt
    refine ⟨U, v, held .free cs ++ R, hF, hU, hlt j, fun slots' s' hF' hs' => ?_⟩
    rw [← Frame.append_assoc] at hF'
    refine ⟨U, cs, R, hF', hU, hcs, fun k => ?_, fun slots'' s'' hF'' hs'' =>
      hPost slots'' s'' hF'' (hs''.trans hs')⟩
    have := hlt k
    simp only [Frame.on_append, List.length_append] at this ⊢
    omega

theorem emits_forget (ks : List StackKind) :
    Emits c (forget ks) fun slots s Post => ∃ cs F, slots.stack = (held .free cs ++ F).uses ∧
      cs.map (·.1) = ks ∧ ∀ slots', slots'.stack = F.uses → Post () slots' s := by
  refine (Emits.tryFollow _).mono ?_
  rintro slots s Post ⟨cs, F, huses, rfl, hPost⟩ slots' hf
  refine hPost slots' ?_
  clear hPost
  induction cs using List.reverseRecOn generalizing slots with
  | nil =>
    cases hf
    exact huses
  | append_singleton cs e ih =>
    obtain ⟨k, v⟩ := e
    simp only [List.map_append, List.map_cons, List.map_nil, List.reverse_append,
      List.reverse_cons, List.reverse_nil, List.nil_append, List.singleton_append,
      List.foldlM_cons] at hf
    obtain ⟨slots₁, hr, hf⟩ := Except.bind_ok.1 hf
    obtain ⟨slot, hrem⟩ := remove_ok hr
    have h : slots.stack =
        (Frame.empty ++ held .free [(k, v)] ++ (held .free cs ++ F)).uses := by
      rw [huses, Frame.held_append, Frame.empty_append, Frame.append_assoc]
    exact ih _ (Slots.uses_remove (A := Frame.empty) h rfl hrem) hf

end

end Stagecraft.Emit
