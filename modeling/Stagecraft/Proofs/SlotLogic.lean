import Stagecraft.Proofs.BinderEmission
import Stagecraft.Proofs.Shapes

/-!
# A logic for the slot model

Code generation fails for two reasons: the language has something that is not supported, or the slot
model lacks a slot that was asked for. `Finds` says that the second does not happen. It is a triple
on frames of which only the uses of slots matter: a computation that starts in a model with the
first frame ends in one that satisfies the condition, or it says what is not supported.

All slots bound while a pattern is taken apart lie above the slots that were there, and the frame
that the binder returns counts them by kind (`Binds`). That is all that dropping them and looking
variables up depends on, so the order in which they lie does not matter.
-/

namespace Stagecraft.Emit

open Target (StackKind Source Instruction ScoreRange)
open Flat (Ty Pattern Term)
open Emit.Frame (held)

namespace Frame

/-- Slots that are not bound yet, in the order they are pushed. -/
def anonymous (ks : List StackKind) : Frame := held .free (ks.map fun k => (k, default))

/-- The slots bound to a level suffice for a value of a type. -/
def Holds (F : Frame) (level : Nat) (ty : Ty) : Prop :=
  ∀ k, ty.erase.count k ≤ (F.uses k).count (.bound level)

/-- Every variable has its slots. -/
def Covers (F : Frame) (vars : List (Var × Ty)) : Prop := ∀ e ∈ vars, F.Holds e.1.level e.2

theorem anonymous_append (ks js : List StackKind) :
    anonymous (ks ++ js) = anonymous js ++ anonymous ks := by
  rw [anonymous, List.map_append, held_append]
  rfl

@[simp] theorem anonymous_nil : anonymous [] = empty := rfl

theorem length_anonymous (ks : List StackKind) (k : StackKind) :
    ((anonymous ks).on k).length = ks.count k := by
  rw [anonymous, length_held, List.map_map]
  simp [Function.comp_def]

theorem Holds.append {F : Frame} {level : Nat} {ty : Ty} (h : F.Holds level ty) (A : Frame) :
    (A ++ F).Holds level ty := fun k => by
  rw [uses_append, List.count_append]
  exact Nat.le_trans (h k) (Nat.le_add_left _ _)

theorem Holds.append_right {F : Frame} {level : Nat} {ty : Ty} (h : F.Holds level ty) (A : Frame) :
    (F ++ A).Holds level ty := fun k => by
  rw [uses_append, List.count_append]
  exact Nat.le_trans (h k) (Nat.le_add_right _ _)

theorem Covers.append {F : Frame} {vars : List (Var × Ty)} (h : F.Covers vars) (A : Frame) :
    (A ++ F).Covers vars := fun e he => (h e he).append A

end Frame

open Emit.Frame (anonymous)

/-- From a model with the slots of the frame, a computation ends in a model as promised, or it says
that something is not supported. -/
structure Finds {α : Type} (x : EmitM α) (F : Frame) (Q : α → Frame → Prop) : Prop where
  run : ∀ o : Output, o.slots.stack = F.uses →
    match x o with
    | .ok (a, o') => ∃ G : Frame, o'.slots.stack = G.uses ∧ Q a G
    | .error e => e.isDefect = false

namespace Finds

variable {α β : Type} {F : Frame}

theorem mono {x : EmitM α} {Q Q' : α → Frame → Prop} (h : Finds x F Q)
    (hQ : ∀ a G, Q a G → Q' a G) : Finds x F Q' := by
  refine ⟨fun o ho => ?_⟩
  have hx := h.run o ho
  split at hx
  · obtain ⟨G, hG, ha⟩ := hx
    exact ⟨G, hG, hQ _ _ ha⟩
  · exact hx

theorem bind {x : EmitM α} {f : α → EmitM β} {Q : α → Frame → Prop} {Q' : β → Frame → Prop}
    (hx : Finds x F Q) (hf : ∀ a G, Q a G → Finds (f a) G Q') : Finds (x >>= f) F Q' := by
  refine ⟨fun o ho => ?_⟩
  have hx := hx.run o ho
  change match (x o >>= fun r => f r.1 r.2) with
    | .ok (b, o') => ∃ G : Frame, o'.slots.stack = G.uses ∧ Q' b G
    | .error e => e.isDefect = false
  cases hr : x o with
  | error e =>
    rw [hr] at hx
    exact hx
  | ok r =>
    rw [hr] at hx
    obtain ⟨G, hG, ha⟩ := hx
    exact (hf r.1 G ha).run r.2 hG

theorem ret {a : α} {Q : α → Frame → Prop} (h : Q a F) : Finds (pure a) F Q :=
  ⟨fun _ ho => ⟨F, ho, h⟩⟩

theorem unsupported {what : String} {Q : α → Frame → Prop} :
    Finds (throw (.unsupported what)) F Q :=
  ⟨fun _ _ => rfl⟩

/-- An answer that does not depend on the model. -/
theorem lift {e : Except Error α} (h : ∀ err, e = .error err → err.isDefect = false) :
    Finds (liftM e) F fun a G => e = .ok a ∧ G = F := by
  refine ⟨fun o ho => ?_⟩
  cases e with
  | error err => exact h err rfl
  | ok a => exact ⟨F, ho, rfl, rfl⟩

theorem get : Finds (MonadState.get : EmitM Output) F fun o G => o.slots.stack = F.uses ∧ G = F :=
  ⟨fun _ ho => ⟨F, ho, ho, rfl⟩⟩

theorem emit (i : Instruction) : Finds (emit i) F fun _ G => G = F :=
  ⟨fun _ ho => ⟨F, ho, rfl⟩⟩

theorem ask {f : Slots → Except Error α} {a : α}
    (h : ∀ slots : Slots, slots.stack = F.uses → f slots = .ok a) :
    Finds (ask f) F fun b G => b = a ∧ G = F := by
  refine ⟨fun o ho => ?_⟩
  have hf : Emit.ask f o = .ok (a, o) := by
    change (liftM (f o.slots) : EmitM α) o = _
    rw [h o.slots ho]
    rfl
  rw [hf]
  exact ⟨F, ho, rfl, rfl⟩

theorem follow {f : Slots → Slots} {G : Frame}
    (h : ∀ slots : Slots, slots.stack = F.uses → (f slots).stack = G.uses) :
    Finds (follow f) F fun _ G' => G' = G :=
  ⟨fun o ho => ⟨G, h o.slots ho, rfl⟩⟩

theorem tryFollow {f : Slots → Except Error Slots} {G : Frame}
    (h : ∀ slots : Slots, slots.stack = F.uses →
      ∃ slots', f slots = .ok slots' ∧ slots'.stack = G.uses) :
    Finds (tryFollow f) F fun _ G' => G' = G := by
  refine ⟨fun o ho => ?_⟩
  obtain ⟨slots', hf, hG⟩ := h o.slots ho
  have hx : Emit.tryFollow f o = .ok ((), { o with slots := slots' }) := by
    change (liftM (f o.slots) >>= fun slots => set { o with slots } : EmitM Unit) o = _
    rw [hf]
    rfl
  rw [hx]
  exact ⟨G, hG, rfl⟩

theorem comment (options : Options) (line : String) :
    Finds (comment options line) F fun _ G => G = F := by
  unfold Emit.comment
  split
  · exact emit _
  · exact ret rfl

end Finds

theorem oneSlot_error {ty : Ty} {what : String} {e : Error} (h : oneSlot ty what = .error e) :
    e.isDefect = false := by
  unfold oneSlot at h
  split at h
  · split at h
    · cases h
      rfl
    · cases h
  · cases h
    rfl

/-- A value of the type takes one slot, which has a content. -/
def HasContent (ty : Ty) : Prop := ∃ k, ty.erase = [k] ∧ k ≠ .endTag

theorem oneSlot_of_hasContent {ty : Ty} (h : HasContent ty) :
    ∃ k, ∀ what, oneSlot ty what = .ok k := by
  obtain ⟨k, hk, hne⟩ := h
  exact ⟨k, fun what => by rw [oneSlot, hk]; exact if_neg hne⟩

theorem oneSlot_of_not_hasContent {ty : Ty} (h : ¬HasContent ty) (what : String) :
    oneSlot ty what = .error (.unsupported (what ++ " spanning several slots")) := by
  rw [oneSlot]
  split
  · next k hk =>
    have hend : k = .endTag := by
      by_contra hne
      exact h ⟨k, hk, hne⟩
    exact if_pos hend
  · rfl

/-- A value goes into one slot, or it is said that it does not. -/
theorem finds_oneSlot {F : Frame} (ty : Ty) (what : String) :
    Finds (liftM (oneSlot ty what)) F fun k G => ty.erase = [k] ∧ G = F :=
  (Finds.lift fun _ => oneSlot_error).mono fun _ _ h => ⟨(oneSlot_ok h.1).1, h.2⟩

/-! ## Slot primitives -/

theorem Slots.exists_remove {A R : Frame} {slots : Slots} {k : StackKind} {i : Int32} {use : Slot}
    {v : Target.Nbt} (h : slots.stack = (A ++ held use [(k, v)] ++ R).uses)
    (hi : i.toInt = -1 - ((A.on k).length : Int)) :
    ∃ slots', slots.remove k i = .ok (use, slots') ∧ slots'.stack = (A ++ R).uses := by
  have hd : slots.depth? k i = some (A.on k).length := by
    have hlen : (A.on k).length < slots.length k := by
      simp [length, h, Frame.uses, Frame.on_held_singleton]
    rw [depth?, hi, if_pos (by omega)]
    congr 1
    omega
  have hget : (slots.stack k)[(A.on k).length]? = some use := by
    rw [h]
    simp [Frame.uses, Frame.on_held_singleton]
  have hr : slots.remove k i =
      .ok (use, ⟨slots.byKind.update k (·.eraseIdx (A.on k).length)⟩) := by
    rw [remove, hd]
    simp only [hget]
  exact ⟨_, hr, uses_remove h hi hr⟩

section

variable (options : Options)

theorem finds_push {F : Frame} (k : StackKind) (src : Source) :
    Finds (push options k src) F fun _ G => G = anonymous [k] ++ F := by
  have hfollow : Finds (follow (·.push k)) F fun _ G => G = anonymous [k] ++ F :=
    Finds.follow fun slots h => Slots.uses_push h k default
  unfold push
  split
  · refine (Finds.comment options _).bind ?_
    rintro _ _ rfl
    refine (Finds.emit _).bind ?_
    rintro _ _ rfl
    exact hfollow
  · exact hfollow

theorem finds_pushAll {F : Frame} (ks : List StackKind) :
    Finds (follow (·.pushAll ks)) F fun _ G => G = anonymous ks ++ F := by
  refine Finds.follow fun slots h => ?_
  have := Slots.uses_pushAll h (ks.map fun k => (k, default))
  rwa [List.map_map, show ((·.1) ∘ fun k => (k, (default : Target.Nbt))) = id from rfl,
    List.map_id] at this

theorem finds_removeAt {A R : Frame} {use : Slot} {v : Target.Nbt} {k : StackKind} {i : Int32}
    (keeps : List StackKind) (hi : i.toInt = -1 - ((A.on k).length : Int)) :
    Finds (removeAt options k i keeps) (A ++ held use [(k, v)] ++ R) fun _ G => G = A ++ R := by
  unfold removeAt
  have hremove : Finds (tryFollow fun s => return (← s.remove k i).2)
      (A ++ held use [(k, v)] ++ R) fun _ G => G = A ++ R := by
    refine Finds.tryFollow fun slots h => ?_
    obtain ⟨slots', hr, h'⟩ := Slots.exists_remove h hi
    refine ⟨slots', ?_, h'⟩
    rw [hr]
    rfl
  refine hremove.bind ?_
  rintro _ _ rfl
  split
  · refine (Finds.comment options _).bind ?_
    rintro _ _ rfl
    exact Finds.emit _
  · exact Finds.ret rfl

theorem finds_dropUnder {k : StackKind} {keeps : List StackKind} {C R : Frame} {use : Slot}
    {v : Target.Nbt} (hC : (C.on k).length = keeps.count k) (hlt : keeps.count k < 2 ^ 31) :
    Finds (drop options k keeps) (C ++ held use [(k, v)] ++ R) fun _ G => G = C ++ R := by
  unfold drop
  exact finds_removeAt options keeps (by rw [toInt_fromTop hlt, hC])

/-- The slots of a piece can be dropped under a value that lies on top of it. -/
theorem finds_dropAll {keeps : List StackKind} {C R : Frame}
    (hC : ∀ k, (C.on k).length = keeps.count k) (hlt : ∀ k, keeps.count k < 2 ^ 31)
    (ks : List StackKind) (B : Frame) (hB : ∀ k, (B.on k).length = ks.count k) :
    Finds (dropAll options keeps ks) (C ++ B ++ R) fun _ G => G = C ++ R := by
  induction ks generalizing B with
  | nil =>
    have : B = Frame.empty := Frame.ext_on fun k => List.length_eq_zero_iff.1 (hB k)
    subst this
    exact Finds.ret (by rw [Frame.append_empty])
  | cons k ks ih =>
    obtain ⟨use, v, B', rfl⟩ := Frame.exists_top (B := B) (k := k) (by rw [hB]; simp)
    have hB' : ∀ j, (B'.on j).length = ks.count j := by
      intro j
      have h := hB j
      rw [Frame.on_append, List.length_append, Frame.on_held_singleton, List.count_cons] at h
      by_cases hj : k = j <;> simp [hj] at h <;> omega
    rw [dropAll, ← Frame.append_assoc, Frame.append_assoc]
    refine (finds_dropUnder options (hC k) (hlt k)).bind ?_
    rintro _ _ rfl
    rw [← Frame.append_assoc]
    exact ih B' hB'

/-- The topmost value of one slot can be dropped. -/
theorem finds_drop {R : Frame} (k : StackKind) :
    Finds (drop options k []) (anonymous [k] ++ R) fun _ G => G = R :=
  finds_dropUnder (C := Frame.empty) options rfl (by simp)

/-- The value on top can be dropped. -/
theorem finds_dropValue {R : Frame} (ks : List StackKind) :
    Finds (dropAll options [] ks.reverse) (anonymous ks ++ R) fun _ G => G = R :=
  finds_dropAll (C := Frame.empty) options (fun _ => rfl) (fun _ => by simp) ks.reverse
    (anonymous ks) fun k => by rw [Frame.length_anonymous, List.count_reverse]

theorem Slots.exists_claim {A R : Frame} {slots : Slots} {k : StackKind} {l : Nat}
    {v : Target.Nbt} (hA : A.bound = A)
    (h : slots.stack = (A ++ held .free [(k, v)] ++ R).uses) :
    ∃ slots', slots.claim k l = .ok slots' ∧
      slots'.stack = (A ++ held (.bound l) [(k, v)] ++ R).uses := by
  have hc : slots.claim k l =
      .ok ⟨slots.byKind.update k (·.set (A.on k).length (.bound l))⟩ := by
    rw [claim, freeDepth?_eq hA h]
  exact ⟨_, hc, uses_claim hA h hc⟩

theorem finds_claimAll {U R : Frame} (hU : U.bound = U) (l : Nat) (ks : List StackKind) :
    Finds (claimAll l ks) (U ++ anonymous ks ++ R) fun _ G =>
      G = U ++ held (.bound l) (ks.map fun k => (k, default)) ++ R := by
  refine Finds.tryFollow fun slots h => ?_
  induction ks using List.reverseRecOn generalizing U slots with
  | nil => exact ⟨slots, rfl, h⟩
  | append_singleton ks k ih =>
    rw [anonymous, List.map_append, List.map_singleton, Frame.held_concat] at h
    obtain ⟨slots₁, hclaim, h₁⟩ := Slots.exists_claim (l := l) hU h
    rw [← Frame.append_assoc] at h₁
    obtain ⟨slots', hfold, h'⟩ := ih (U := U ++ held (.bound l) [(k, default)]) (by simp [hU]) _ h₁
    refine ⟨slots', ?_, ?_⟩
    · rw [List.reverse_append, List.reverse_singleton, List.singleton_append, List.foldlM_cons,
        hclaim]
      exact hfold
    · rw [h', List.map_append, List.map_singleton, Frame.held_concat, Frame.append_assoc]

theorem finds_removeFree {U R : Frame} {k : StackKind} (hU : U.bound = U)
    (hsmall : ((U ++ anonymous [k] ++ R).on k).length < 2 ^ 31) :
    Finds (removeFree options k) (U ++ anonymous [k] ++ R) fun _ G => G = U ++ R := by
  unfold removeFree
  refine (Finds.ask fun slots h => Slots.lastFree_eq hU h).bind ?_
  rintro _ _ ⟨rfl, rfl⟩
  refine Finds.get.bind ?_
  rintro o _ ⟨ho, rfl⟩
  exact finds_removeAt options [] (Slots.toInt_relative_eq ho hsmall)

theorem finds_removeFreeAll {U : Frame} (hU : U.bound = U) : ∀ (ks : List StackKind) (R : Frame),
    (U ++ anonymous ks ++ R).Small 0 →
      Finds (removeFreeAll options ks.reverse) (U ++ anonymous ks ++ R) fun _ G => G = U ++ R := by
  intro ks
  induction ks using List.reverseRecOn with
  | nil => exact fun R _ => Finds.ret (by rw [Frame.anonymous_nil, Frame.append_empty])
  | append_singleton ks k ih =>
    intro R hsmall
    have hsplit : U ++ anonymous (ks ++ [k]) ++ R = U ++ anonymous [k] ++ (anonymous ks ++ R) := by
      rw [Frame.anonymous_append, ← Frame.append_assoc, Frame.append_assoc]
    rw [List.reverse_append, List.reverse_singleton, List.singleton_append, removeFreeAll]
    rw [hsplit] at hsmall ⊢
    refine (finds_removeFree options hU (hsmall k)).bind ?_
    rintro _ _ rfl
    rw [← Frame.append_assoc]
    refine ih R (hsmall.mono fun j => ?_)
    simp only [Frame.on_append, List.length_append]
    omega

theorem finds_forget {F : Frame} (ks : List StackKind) :
    Finds (forget ks) (anonymous ks ++ F) fun _ G => G = F := by
  refine Finds.tryFollow fun slots h => ?_
  induction ks using List.reverseRecOn generalizing slots with
  | nil => exact ⟨slots, rfl, h⟩
  | append_singleton ks k ih =>
    have htop : slots.stack = (Frame.empty ++ held .free [(k, default)] ++
        (anonymous ks ++ F)).uses := by
      rw [h, Frame.anonymous_append, Frame.append_assoc]
      rfl
    obtain ⟨slots₁, hr, h₁⟩ := Slots.exists_remove (i := -1) htop rfl
    obtain ⟨slots', hfold, h'⟩ := ih slots₁ h₁
    refine ⟨slots', ?_, h'⟩
    rw [List.reverse_append, List.reverse_singleton, List.singleton_append, List.foldlM_cons, hr]
    exact hfold

end

/-! ## Binders -/

/-- The variables of a flat pattern with their types, from left to right. -/
abbrev Typed := List (Var × Ty)

mutual

/-- The variables that a pattern binds, with their types, from left to right. -/
def typedBinders : Pattern → Typed
  | .int .. | .range .. | .wildcard _ => []
  | .list _ ps | .tuple _ ps => typedBindersOfAll ps
  | .compound _ fields => typedBindersOfFields fields
  | .var info v => [(v, info.ty)]

def typedBindersOfAll : List Pattern → Typed
  | [] => []
  | p :: ps => typedBinders p ++ typedBindersOfAll ps

def typedBindersOfFields : List (String × Pattern) → Typed
  | [] => []
  | (_, p) :: rest => typedBinders p ++ typedBindersOfFields rest

end

/-- A binder makes `B` of the bound slots `U` above a value: all of it is bound, the variables have
their slots, and there are as many new ones as the binder says, which are few. -/
structure Binds (U : Frame) (kinds : List StackKind) (weight : Nat) (vars : Typed)
    (frame : List StackKind) (B : Frame) : Prop where
  bound : B.bound = B
  length : ∀ k, (B.on k).length = (U.on k).length + frame.count k
  keeps : ∀ k level, (U.uses k).count (.bound level) ≤ (B.uses k).count (.bound level)
  holds : B.Covers vars
  few : ∀ k, frame.count k ≤ kinds.count k + weight

namespace Binds

variable {U B B' : Frame} {kinds kinds' frame frame' : List StackKind} {weight weight' : Nat}
  {vars vars' : Typed}

theorem none (hU : U.bound = U) : Binds U kinds weight [] [] U where
  bound := hU
  length _ := rfl
  keeps _ _ := Nat.le_refl _
  holds _ he := nomatch he
  few _ := Nat.zero_le _

/-- One binder after another. -/
theorem comp (h : Binds U kinds weight vars frame B)
    (h' : Binds B kinds' weight' vars' frame' B') :
    Binds U (kinds' ++ kinds) (weight' + weight) (vars' ++ vars) (frame' ++ frame) B' where
  bound := h'.bound
  length k := by
    rw [h'.length, h.length, List.count_append]
    omega
  keeps k level := Nat.le_trans (h.keeps k level) (h'.keeps k level)
  holds e he k := by
    rcases List.mem_append.1 he with he | he
    · exact h'.holds e he k
    · exact Nat.le_trans (h.holds e he k) (h'.keeps k e.1.level)
  few k := by
    have h₁ := h.few k
    have h₂ := h'.few k
    rw [List.count_append, List.count_append]
    omega

/-- The order of variables and slots does not matter, and there may be fewer slots than said. -/
theorem mono (h : Binds U kinds weight vars frame B) (hvars : vars' ⊆ vars)
    (hframe : frame'.Perm frame)
    (hfew : ∀ k, kinds.count k + weight ≤ kinds'.count k + weight') :
    Binds U kinds' weight' vars' frame' B where
  bound := h.bound
  length k := by rw [h.length, hframe.count_eq]
  keeps := h.keeps
  holds e he := h.holds e (hvars he)
  few k := by
    rw [hframe.count_eq]
    exact Nat.le_trans (h.few k) (hfew k)

/-- What is bound on its own goes on top of what was bound before. -/
theorem onto (h : Binds .empty kinds weight vars frame B) (hU : U.bound = U) :
    Binds U kinds weight vars frame (B ++ U) where
  bound := by rw [Frame.bound_append, h.bound, hU]
  length k := by
    rw [Frame.on_append, List.length_append, h.length, Frame.on_empty, List.length_nil]
    omega
  keeps k level := by
    rw [Frame.uses_append, List.count_append]
    exact Nat.le_add_left _ _
  holds e he := (h.holds e he).append_right U
  few := h.few

end Binds

theorem binds_var {U : Frame} (hU : U.bound = U) (info : Flat.PatternInfo) (v : Var) :
    Binds U info.ty.erase 0 [(v, info.ty)] info.ty.erase
      (U ++ held (.bound v.level) (info.ty.erase.map fun k => (k, default))) where
  bound := by rw [Frame.bound_append, hU, Frame.bound_held_bound]
  length k := by
    rw [Frame.on_append, List.length_append, Frame.length_held, List.map_map]
    simp [Function.comp_def]
  keeps k level := by
    rw [Frame.uses_append, List.count_append]
    exact Nat.le_add_right _ _
  holds e he k := by
    rw [List.mem_singleton] at he
    subst he
    rw [Frame.uses_append, List.count_append]
    refine Nat.le_trans (Nat.le_of_eq ?_) (Nat.le_add_left _ _)
    have hall : ∀ x ∈ (held (.bound v.level)
        (info.ty.erase.map fun k => (k, (default : Target.Nbt)))).uses k, .bound v.level = x := by
      intro x hx
      simp only [Frame.uses, held, List.mem_map, List.mem_reverse, List.mem_filter] at hx
      obtain ⟨-, ⟨-, -, rfl⟩, rfl⟩ := hx
      rfl
    rw [List.count_eq_length.2 hall, Frame.uses, List.length_map, Frame.length_held, List.map_map]
    simp [Function.comp_def]
  few _ := Nat.le_add_right _ _

section

variable (options : Options)

mutual

/-- A pattern finds the slots of the value it takes apart. -/
theorem finds_bind : ∀ (p : Pattern) (U R : Frame), patternKindsAgree p → U.bound = U →
    (U ++ anonymous p.ty.erase ++ R).Small (patternWeight p) →
      Finds (bind options p) (U ++ anonymous p.ty.erase ++ R) fun frame G => ∃ B, G = B ++ R ∧
        Binds U p.ty.erase (patternWeight p) (typedBinders p) frame B
  | .var info v, U, R, _, hU, _ => by
    rw [bind]
    refine (finds_claimAll hU v.level info.ty.erase).bind ?_
    rintro _ _ rfl
    exact Finds.ret ⟨_, rfl, binds_var hU info v⟩
  | .int info n, U, R, hp, hU, hsmall => by
    have hk : info.ty.erase = [.int] := eq_of_beq hp
    rw [bind]
    simp only [Pattern.ty, Pattern.info, hk] at hsmall ⊢
    refine (finds_removeFree options hU (hsmall _)).bind ?_
    rintro _ _ rfl
    exact Finds.ret ⟨U, rfl, .none hU⟩
  | .range info min max, U, R, hp, hU, hsmall => by
    have hk : info.ty.erase = [.int] := eq_of_beq hp
    rw [bind]
    simp only [Pattern.ty, Pattern.info, hk] at hsmall ⊢
    refine (finds_removeFree options hU (hsmall _)).bind ?_
    rintro _ _ rfl
    exact Finds.ret ⟨U, rfl, .none hU⟩
  | .wildcard info, U, R, _, hU, hsmall => by
    rw [bind]
    refine (finds_removeFreeAll options hU info.ty.erase R hsmall).bind ?_
    rintro _ _ rfl
    exact Finds.ret ⟨U, rfl, .none hU⟩
  | .tuple info ps, U, R, hp, hU, hsmall => by
    rw [patternKindsAgree, Bool.and_eq_true, beq_iff_eq] at hp
    rw [bind]
    simp only [Pattern.ty, Pattern.info, hp.1] at hsmall ⊢
    exact finds_bindAll ps U R hp.2 hU hsmall
  | .compound info fields, U, R, hp, hU, hsmall => by
    rw [patternKindsAgree, Bool.and_eq_true, beq_iff_eq] at hp
    rw [bind]
    simp only [Pattern.ty, Pattern.info, hp.1] at hsmall ⊢
    refine (Finds.ask fun slots h => Slots.lastFree_eq hU h).bind ?_
    rintro _ _ ⟨rfl, rfl⟩
    refine (finds_bindFields fields U R hp.2 hU hsmall).bind ?_
    rintro frame _ ⟨B, rfl, hB⟩
    have hlt : ((B ++ anonymous [.compound] ++ R).on .compound).length < 2 ^ 31 := by
      have h₁ := hB.length .compound
      have h₂ := hB.few .compound
      have h₃ := hsmall .compound
      simp only [Frame.on_append, List.length_append, patternWeight, List.count_nil] at h₂ h₃ ⊢
      omega
    refine Finds.get.bind ?_
    rintro o _ ⟨ho, rfl⟩
    refine (finds_removeAt options [] (Slots.toInt_relative_eq ho hlt)).bind ?_
    rintro _ _ rfl
    exact Finds.ret ⟨B, rfl, hB.mono (List.Subset.refl _) (List.Perm.refl _) fun k =>
      Nat.add_le_add_right (Nat.zero_le _) _⟩
  | .list .., U, R, _, _, _ => by
    rw [bind]
    exact Finds.unsupported

theorem finds_bindAll : ∀ (ps : List Pattern) (U R : Frame), patternsKindsAgree ps →
    U.bound = U →
    (U ++ anonymous (ps.flatMap fun p => p.ty.erase) ++ R).Small (patternsWeight ps) →
      Finds (bindAll options ps) (U ++ anonymous (ps.flatMap fun p => p.ty.erase) ++ R)
        fun frame G => ∃ B, G = B ++ R ∧ Binds U (ps.flatMap fun p => p.ty.erase)
          (patternsWeight ps) (typedBindersOfAll ps) frame B
  | [], U, R, _, hU, _ => by
    rw [bindAll]
    exact Finds.ret ⟨U, by rw [List.flatMap_nil, Frame.anonymous_nil, Frame.append_empty], .none hU⟩
  | p :: ps, U, R, hp, hU, hsmall => by
    rw [patternsKindsAgree, Bool.and_eq_true] at hp
    rw [List.flatMap_cons, Frame.anonymous_append, ← Frame.append_assoc, Frame.append_assoc]
      at hsmall ⊢
    rw [bindAll]
    have hlater : (U ++ anonymous (ps.flatMap fun p => p.ty.erase) ++
        (anonymous p.ty.erase ++ R)).Small (patternsWeight ps) :=
      hsmall.mono fun k => by simp only [patternsWeight]; omega
    refine (finds_bindAll ps U (anonymous p.ty.erase ++ R) hp.2 hU hlater).bind ?_
    rintro frame _ ⟨B, rfl, hB⟩
    rw [← Frame.append_assoc]
    have hfirst : (B ++ anonymous p.ty.erase ++ R).Small (patternWeight p) :=
      hsmall.mono fun k => by
        have h₁ := hB.length k
        have h₂ := hB.few k
        simp only [Frame.on_append, List.length_append, Frame.length_anonymous, patternsWeight]
        omega
    refine (finds_bind p B R hp.1 hB.bound hfirst).bind ?_
    rintro frame' _ ⟨B', rfl, hB'⟩
    exact Finds.ret ⟨B', rfl, hB.comp hB'⟩

theorem finds_bindFields : ∀ (fields : List (String × Pattern)) (U R : Frame),
    fieldPatternsKindsAgree fields → U.bound = U →
    (U ++ anonymous [.compound] ++ R).Small (fieldPatternsWeight fields) →
      Finds (bindFields options (R.on .compound).length fields) (U ++ anonymous [.compound] ++ R)
        fun frame G => ∃ B, G = B ++ anonymous [.compound] ++ R ∧
          Binds U [] (fieldPatternsWeight fields) (typedBindersOfFields fields) frame B
  | [], U, R, _, hU, _ => by
    rw [bindFields]
    exact Finds.ret ⟨U, rfl, .none hU⟩
  | (key, p) :: rest, U, R, hp, hU, hsmall => by
    rw [fieldPatternsKindsAgree, Bool.and_eq_true] at hp
    rw [bindFields]
    refine (finds_oneSlot p.ty _).bind ?_
    rintro k _ ⟨hk, rfl⟩
    refine Finds.get.bind ?_
    rintro o _ ⟨-, rfl⟩
    refine (finds_push options k _).bind ?_
    rintro _ _ rfl
    have hfirst : (Frame.empty ++ anonymous p.ty.erase ++
        (U ++ anonymous [.compound] ++ R)).Small (patternWeight p) :=
      hsmall.mono fun j => by
        have h : [k].count j ≤ 1 := List.count_le_length
        simp only [Frame.on_append, List.length_append, Frame.length_anonymous, Frame.on_empty,
          List.length_nil, fieldPatternsWeight, hk]
        omega
    have hbind := finds_bind p .empty (U ++ anonymous [.compound] ++ R) hp.1 rfl hfirst
    rw [hk] at hbind
    refine hbind.bind ?_
    rintro frame _ ⟨B, rfl, hB⟩
    rw [← Frame.append_assoc, ← Frame.append_assoc]
    have hBU := hB.onto hU
    have hlater : (B ++ U ++ anonymous [.compound] ++ R).Small (fieldPatternsWeight rest) :=
      hsmall.mono fun j => by
        have h₁ := hBU.length j
        have h₂ := hBU.few j
        have h₃ : [k].count j ≤ 1 := List.count_le_length
        simp only [Frame.on_append, List.length_append, fieldPatternsWeight] at h₁ ⊢
        omega
    refine (finds_bindFields rest (B ++ U) R hp.2 hBU.bound hlater).bind ?_
    rintro frame' _ ⟨B', rfl, hB'⟩
    refine Finds.ret ⟨B', rfl, (hBU.comp hB').mono ?_ List.perm_append_comm fun j => ?_⟩
    · exact List.append_subset.2 ⟨List.subset_append_right _ _, List.subset_append_left _ _⟩
    · have h : [k].count j ≤ 1 := List.count_le_length
      simp only [List.nil_append, List.count_nil, fieldPatternsWeight]
      omega

end

/-! ## Tests and variables -/

theorem finds_testInt {R : Frame} (range : ScoreRange) :
    Finds (testInt options range) (anonymous [.int] ++ R) fun _ G => G = R := by
  unfold testInt
  refine (Finds.emit _).bind ?_
  rintro _ _ rfl
  refine (finds_drop options .int).bind ?_
  rintro _ _ rfl
  exact Finds.emit _

mutual

/-- A test finds the slots of the value it consumes. -/
theorem finds_test : ∀ (p : Pattern) (R : Frame), patternKindsAgree p →
    Finds (test options p) (anonymous p.ty.erase ++ R) fun _ G => G = R
  | .int info n, R, hp => by
    have hk : info.ty.erase = [.int] := eq_of_beq hp
    rw [test]
    simp only [Pattern.ty, Pattern.info, hk]
    exact finds_testInt options _
  | .range info min max, R, hp => by
    have hk : info.ty.erase = [.int] := eq_of_beq hp
    rw [test]
    simp only [Pattern.ty, Pattern.info, hk]
    exact finds_testInt options _
  | .tuple info ps, R, hp => by
    rw [patternKindsAgree, Bool.and_eq_true, beq_iff_eq] at hp
    rw [test]
    simp only [Pattern.ty, Pattern.info, hp.1]
    exact finds_testAll ps R hp.2
  | .var info v, R, _ => by
    rw [test]
    exact finds_dropValue options info.ty.erase
  | .wildcard info, R, _ => by
    rw [test]
    exact finds_dropValue options info.ty.erase
  | .list .., R, _ => by
    rw [test]
    exact Finds.unsupported
  | .compound .., R, _ => by
    rw [test]
    exact Finds.unsupported

theorem finds_testAll : ∀ (ps : List Pattern) (R : Frame), patternsKindsAgree ps →
    Finds (testAll options ps) (anonymous (ps.flatMap fun p => p.ty.erase) ++ R) fun _ G => G = R
  | [], R, _ => by
    rw [testAll]
    exact Finds.ret rfl
  | p :: ps, R, hp => by
    rw [patternsKindsAgree, Bool.and_eq_true] at hp
    rw [List.flatMap_cons, Frame.anonymous_append, Frame.append_assoc, testAll]
    refine (finds_testAll ps _ hp.2).bind ?_
    rintro _ _ rfl
    exact finds_test p R hp.1

end

theorem Slots.length_boundDepths (s : Slots) (k : StackKind) (level : Nat) :
    (s.boundDepths k level).length = (s.stack k).count (.bound level) := by
  have hdepths : ∀ (slots : List Slot) (n : Nat), ((slots.zipIdx n).filterMap fun e =>
      if e.1 = .bound level then some e.2 else none).length = slots.count (.bound level) := by
    intro slots
    induction slots with
    | nil => exact fun _ => rfl
    | cons slot slots ih =>
      intro n
      rw [List.zipIdx_cons, List.filterMap_cons, List.count_cons]
      by_cases h : slot = .bound level <;> simp [h, ih]
  exact hdepths _ 0

/-- A variable that holds so many slots of a kind has an index for each. -/
theorem Slots.exists_find? {s : Slots} {k : StackKind} {level occurrence arity : Nat}
    (harity : arity ≤ (s.stack k).count (.bound level)) (hlt : occurrence < arity) :
    ∃ i, s.find? k level occurrence arity = some i := by
  rw [← Slots.length_boundDepths] at harity
  have hget : arity - 1 - occurrence < (s.boundDepths k level).length := by omega
  rw [find?, if_pos ⟨harity, hlt⟩, List.getElem?_eq_getElem hget]
  exact ⟨_, rfl⟩

/-- A variable that holds the slots of a type can be copied. -/
theorem finds_copySlots (v : Var) : ∀ (ks before : List StackKind) (F : Frame),
    (∀ k, (before ++ ks).count k ≤ (F.uses k).count (.bound v.level)) →
      Finds (copySlots options v before ks) F fun _ G => G = anonymous ks ++ F
  | [], before, F, _ => by
    rw [copySlots]
    exact Finds.ret rfl
  | k :: rest, before, F, h => by
    rw [copySlots]
    refine Finds.get.bind ?_
    rintro o _ ⟨ho, rfl⟩
    have harity : (before ++ k :: rest).count k ≤ (o.slots.stack k).count (.bound v.level) := by
      rw [ho]
      exact h k
    have hlt : before.count k < (before ++ k :: rest).count k := by
      rw [List.count_append, List.count_cons_self]
      omega
    obtain ⟨i, hi⟩ := Slots.exists_find? harity hlt
    simp only [hi]
    refine (finds_push options k _).bind ?_
    rintro _ _ rfl
    have hsplit : anonymous (k :: rest) = anonymous rest ++ anonymous [k] :=
      Frame.anonymous_append [k] rest
    rw [hsplit, Frame.append_assoc]
    refine finds_copySlots v rest (before ++ [k]) (anonymous [k] ++ _) fun j => ?_
    rw [List.append_assoc]
    refine Nat.le_trans (h j) ?_
    rw [Frame.uses_append, List.count_append]
    exact Nat.le_add_left _ _

/-- Captured variables that hold their slots are stored. -/
theorem finds_storeCaptures {F : Frame} : ∀ captures : List Flat.Capture,
    (∀ c ∈ captures, F.Holds c.v.level c.ty) →
      Finds (storeCaptures captures) F fun _ G => G = F
  | [], _ => by
    rw [storeCaptures]
    exact Finds.ret rfl
  | c :: rest, h => by
    have hrest := finds_storeCaptures rest fun d hd => h d (List.mem_cons_of_mem _ hd)
    rw [storeCaptures]
    split
    · refine (finds_oneSlot c.ty _).bind ?_
      rintro k _ ⟨hk, rfl⟩
      refine Finds.get.bind ?_
      rintro o _ ⟨ho, rfl⟩
      have harity : 1 ≤ (o.slots.stack k).count (.bound c.v.level) := by
        have hc := h c List.mem_cons_self k
        rwa [hk, List.count_singleton_self, ← ho] at hc
      obtain ⟨i, hi⟩ := Slots.exists_find? harity Nat.zero_lt_one
      simp only [hi]
      refine (Finds.emit _).bind ?_
      rintro _ _ rfl
      exact hrest
    · exact hrest

end

end Stagecraft.Emit
