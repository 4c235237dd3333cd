import Mathlib.Algebra.Group.Int.Defs
import Mathlib.Algebra.Group.Pi.Basic
import Mathlib.Tactic.Abel
import Stagecraft.Proofs.TermSlots

/-!
# Numbers of slots

How many slots of each kind code adds and takes out, whichever they are. `Changes` is a triple of
that: it says less than the account of the slots themselves, and it goes through where slots that
are kept lie between those of a value. It also says when code generation meets something that is not
supported, so that all other failures are defects.

A let whose binder is marked to keep its slots leaves them on the stacks, and nothing around it
counts on them. A term adds the slots of its type and those that it keeps (`changes_term`), while a
function must be left with the slots of its result alone: if it is emitted, it keeps none
(`function_spec`).
-/

namespace Stagecraft.Emit

open Target (StackKind Source Instruction ScoreRange)
open Flat (Ty Pattern Term Capture)

/-! ## Numbers of slots -/

/-- How many of the kinds listed are of each kind. -/
def tally (ks : List StackKind) : StackKind → Int := fun k => ks.count k

@[simp] theorem tally_nil : tally [] = 0 := rfl

@[simp] theorem tally_append (ks js : List StackKind) : tally (ks ++ js) = tally ks + tally js :=
  funext fun k => by simp [tally]

theorem tally_cons (k : StackKind) (ks : List StackKind) : tally (k :: ks) = tally [k] + tally ks :=
  tally_append [k] ks

@[simp] theorem tally_reverse (ks : List StackKind) : tally ks.reverse = tally ks :=
  funext fun k => by simp [tally]

namespace Slots

theorem length_push (s : Slots) (k j : StackKind) :
    ((s.push k).length j : Int) = s.length j + tally [k] j := by
  rw [length, stack_push]
  by_cases h : k = j
  · subst h
    simp [tally, length]
  · simp [tally, length, h]

theorem length_pushAll (ks : List StackKind) (s : Slots) (j : StackKind) :
    ((s.pushAll ks).length j : Int) = s.length j + tally ks j := by
  induction ks generalizing s with
  | nil => simp [pushAll]
  | cons k ks ih =>
    have hpush : s.pushAll (k :: ks) = (s.push k).pushAll ks := rfl
    rw [hpush, ih, length_push, tally_cons k ks, Pi.add_apply]
    omega

theorem length_foldl_release (vars : List Var) (s : Slots) (k : StackKind) :
    (vars.foldl (fun s v => s.release v.level) s).length k = s.length k := by
  induction vars generalizing s with
  | nil => rfl
  | cons v vars ih => exact (ih _).trans (length_release s v.level k)

theorem lastFree_error {s : Slots} {k : StackKind} {e : Error} (h : s.lastFree k = .error e) :
    e.isDefect = true := by
  rw [lastFree] at h
  split at h
  · cases h
    rfl
  · cases h

end Slots

/-- A change of the slot model changes the number of slots of each kind as said. If it fails, that
is a defect. -/
structure Alters (f : Slots → Except Error Slots) (c : StackKind → Int) : Prop where
  ok : ∀ {s s'}, f s = .ok s' → ∀ k, (s'.length k : Int) = s.length k + c k
  error : ∀ {s e}, f s = .error e → e.isDefect = true

theorem Alters.bind {f g : Slots → Except Error Slots} {c c' : StackKind → Int} (hf : Alters f c)
    (hg : Alters g c') : Alters (fun s => f s >>= g) (c + c') where
  ok h k := by
    obtain ⟨s₁, hs₁, hs'⟩ := Except.bind_ok.1 h
    have h₁ := hf.ok hs₁ k
    have h₂ := hg.ok hs' k
    rw [Pi.add_apply]
    omega
  error {s e} h := by
    cases hs : f s with
    | error e' =>
      rw [hs] at h
      cases h
      exact hf.error hs
    | ok s₁ =>
      rw [hs] at h
      exact hg.error h

theorem alters_remove (k : StackKind) (i : Int32) :
    Alters (fun s => return (← s.remove k i).2) (-tally [k]) where
  ok {s s'} h j := by
    obtain ⟨slot, h⟩ := remove_ok h
    rw [Slots.remove] at h
    split at h
    · cases h
    · split at h
      · cases h
      · next hget =>
        cases h
        obtain ⟨hlt, -⟩ := List.getElem?_eq_some_iff.1 hget
        by_cases hj : k = j
        · subst hj
          simp only [Slots.length, Slots.stack, Target.PerKind.update, Target.PerKind.get_set,
            if_pos, tally, Pi.neg_apply, List.count_singleton_self] at hlt ⊢
          rw [List.length_eraseIdx_of_lt hlt]
          omega
        · simp [Slots.length, Slots.stack, Target.PerKind.update, Target.PerKind.get_set, tally, hj]
  error {s e} h := by
    rw [Slots.remove] at h
    split at h
    · cases h
      rfl
    · split at h <;> cases h
      rfl

theorem alters_claim (k : StackKind) (level : Nat) : Alters (·.claim k level) 0 where
  ok h j := by rw [Slots.length_claim h, Pi.zero_apply, Int.add_zero]
  error h := by
    rw [Slots.claim] at h
    split at h <;> cases h
    rfl

/-- One step for each kind of a list, which changes the number of its slots by `n`. -/
theorem alters_foldlM {f : Slots → StackKind → Except Error Slots} {n : Int}
    (h : ∀ k, Alters (f · k) (n • tally [k])) (ks : List StackKind) :
    Alters (ks.foldlM f ·) (n • tally ks) := by
  induction ks with
  | nil =>
    refine ⟨fun h k => ?_, fun h => nomatch h⟩
    cases h
    simp
  | cons k ks ih =>
    have hfold : (fun s => (k :: ks).foldlM f s) = fun s => f s k >>= (ks.foldlM f ·) :=
      funext fun s => List.foldlM_cons
    rw [hfold, tally_cons k ks, zsmul_add]
    exact (h k).bind ih

/-- A computation that succeeds has met nothing unsupported, gives an answer as said and changes the
number of slots of each kind as said. If it fails although nothing is unsupported, that is a
defect. -/
structure Changes {α : Type} (S : Prop) (c : StackKind → Int) (Q : α → Prop) (x : EmitM α) :
    Prop where
  run : ∀ o : Output,
    match x o with
    | .ok (a, o') => S ∧ Q a ∧ ∀ k, (o'.slots.length k : Int) = o.slots.length k + c k
    | .error e => S → e.isDefect = true

namespace Changes

variable {α β : Type} {S T : Prop} {c d : StackKind → Int} {Q : α → Prop} {R : β → Prop}
  {x : EmitM α} {f : α → EmitM β}

theorem mono {P : α → Prop} (h : Changes S c Q x) (hS : S ↔ T) (hc : c = d)
    (hQ : ∀ a, Q a → P a) : Changes T d P x := by
  subst hc
  refine ⟨fun o => ?_⟩
  have hx := h.run o
  split at hx
  · exact ⟨hS.1 hx.1, hQ _ hx.2.1, hx.2.2⟩
  · exact fun hs => hx (hS.2 hs)

theorem congr (h : Changes S c Q x) (hS : S ↔ T) (hc : c = d) : Changes T d Q x :=
  h.mono hS hc fun _ ha => ha

theorem bind (hx : Changes S c Q x) (hf : ∀ a, Q a → Changes T d R (f a)) :
    Changes (S ∧ T) (c + d) R (x >>= f) := by
  refine ⟨fun o => ?_⟩
  have hx := hx.run o
  change match (x o >>= fun r => f r.1 r.2) with
    | .ok (b, o') => (S ∧ T) ∧ R b ∧
        ∀ k, (o'.slots.length k : Int) = o.slots.length k + (c + d) k
    | .error e => S ∧ T → e.isDefect = true
  cases hr : x o with
  | error e =>
    rw [hr] at hx
    exact fun hs => hx hs.1
  | ok r =>
    rw [hr] at hx
    obtain ⟨hs, ha, hlen⟩ := hx
    have hf := (hf r.1 ha).run r.2
    change match f r.1 r.2 with
      | .ok (b, o') => (S ∧ T) ∧ R b ∧
          ∀ k, (o'.slots.length k : Int) = o.slots.length k + (c + d) k
      | .error e => S ∧ T → e.isDefect = true
    split at hf
    · next b o' _ =>
      refine ⟨⟨hs, hf.1⟩, hf.2.1, fun k => ?_⟩
      have h₁ := hlen k
      have h₂ := hf.2.2 k
      rw [Pi.add_apply]
      omega
    · exact fun hs => hf hs.2

/-- What follows a computation needs to be known for the answers that it gives. -/
theorem bind_congr (hx : Changes S c Q x) {g : α → EmitM β} (h : ∀ a, Q a → f a = g a) :
    x >>= f = x >>= g := by
  funext o
  have hx := hx.run o
  change (x o >>= fun r => f r.1 r.2) = (x o >>= fun r => g r.1 r.2)
  split at hx
  · next a o' hr =>
    rw [hr]
    exact congrFun (h a hx.2.1) o'
  · next hr =>
    rw [hr]
    rfl

theorem ret {a : α} (h : Q a) : Changes True 0 Q (pure a) :=
  ⟨fun _ => ⟨trivial, h, fun _ => (Int.add_zero _).symm⟩⟩

theorem unsupported {what : String} : Changes False c Q (throw (.unsupported what)) :=
  ⟨fun _ h => h.elim⟩

theorem defect {e : Error} (h : e.isDefect = true) : Changes S c Q (throw e) := ⟨fun _ _ => h⟩

theorem get : Changes True 0 (fun _ => True) (MonadState.get : EmitM Output) :=
  ⟨fun _ => ⟨trivial, trivial, fun _ => (Int.add_zero _).symm⟩⟩

theorem emit (i : Instruction) : Changes True 0 (fun _ => True) (emit i) :=
  ⟨fun _ => ⟨trivial, trivial, fun _ => (Int.add_zero _).symm⟩⟩

theorem ask {f : Slots → Except Error α} (h : ∀ s e, f s = .error e → e.isDefect = true) :
    Changes True 0 (fun _ => True) (ask f) := by
  refine ⟨fun o => ?_⟩
  change match ((liftM (f o.slots) : EmitM α) o) with
    | .ok (a, o') => _
    | .error e => _
  cases hf : f o.slots with
  | error e => exact fun _ => h _ _ hf
  | ok a => exact ⟨trivial, trivial, fun _ => (Int.add_zero _).symm⟩

theorem follow {f : Slots → Slots} (h : ∀ s k, ((f s).length k : Int) = s.length k + c k) :
    Changes True c (fun _ => True) (follow f) :=
  ⟨fun o => ⟨trivial, trivial, h o.slots⟩⟩

theorem tryFollow {f : Slots → Except Error Slots} (h : Alters f c) :
    Changes True c (fun _ => True) (tryFollow f) := by
  refine ⟨fun o => ?_⟩
  have hrun : Emit.tryFollow f o =
      (f o.slots).map fun slots => ((), { o with slots := slots }) := by
    change (liftM (f o.slots) >>= fun slots => set { o with slots := slots } : EmitM Unit) o = _
    cases f o.slots <;> rfl
  rw [hrun]
  cases hf : f o.slots with
  | ok s' => exact ⟨trivial, trivial, h.ok hf⟩
  | error e => exact fun _ => h.error hf

theorem oneSlot (ty : Ty) (what : String) :
    Changes (HasContent ty) 0 (fun k => ty.erase = [k]) (liftM (oneSlot ty what)) := by
  refine ⟨fun o => ?_⟩
  by_cases h : HasContent ty
  · obtain ⟨k, hk⟩ := oneSlot_of_hasContent h
    rw [hk what]
    exact ⟨h, (oneSlot_ok (hk what)).1, fun _ => (Int.add_zero _).symm⟩
  · rw [oneSlot_of_not_hasContent h what]
    exact fun hs => absurd hs h

theorem comment (options : Options) (line : String) :
    Changes True 0 (fun _ => True) (comment options line) := by
  unfold Emit.comment
  split
  · exact emit _
  · exact ret trivial

end Changes

/-! ## Slot primitives -/

section

variable (options : Options)

theorem changes_push (k : StackKind) (src : Source) :
    Changes True (tally [k]) (fun _ => True) (push options k src) := by
  have hfollow : Changes True (tally [k]) (fun _ => True) (follow (·.push k)) :=
    .follow fun s j => s.length_push k j
  unfold push
  split
  · exact ((Changes.comment options _).bind fun _ _ => (Changes.emit _).bind fun _ _ =>
      hfollow).congr (by simp) (by simp)
  · exact hfollow

theorem changes_pushAll (ks : List StackKind) :
    Changes True (tally ks) (fun _ => True) (follow (·.pushAll ks)) :=
  .follow fun s j => s.length_pushAll ks j

theorem changes_removeAt (k : StackKind) (i : Int32) (keeps : List StackKind) :
    Changes True (-tally [k]) (fun _ => True) (removeAt options k i keeps) := by
  unfold removeAt
  have hremove := Changes.tryFollow (alters_remove k i)
  split
  · exact (hremove.bind fun _ _ => (Changes.comment options _).bind fun _ _ =>
      Changes.emit _).congr (by simp) (by simp)
  · exact (hremove.bind fun _ _ => Changes.ret trivial).congr (by simp) (by simp)

theorem changes_dropAll (keeps : List StackKind) : ∀ ks : List StackKind,
    Changes True (-tally ks) (fun _ => True) (dropAll options keeps ks)
  | [] => by
    rw [dropAll]
    exact (Changes.ret trivial).congr Iff.rfl (by simp)
  | k :: ks => by
    rw [dropAll]
    exact ((changes_removeAt options k _ keeps).bind fun _ _ => changes_dropAll keeps ks).congr
      (by simp) (by rw [tally_cons k ks]; abel)

theorem changes_removeFree (k : StackKind) :
    Changes True (-tally [k]) (fun _ => True) (removeFree options k) := by
  unfold removeFree
  exact ((Changes.ask fun _ _ => Slots.lastFree_error).bind fun _ _ => Changes.get.bind fun _ _ =>
    changes_removeAt options k _ []).congr (by simp) (by simp)

theorem changes_removeFreeAll : ∀ ks : List StackKind,
    Changes True (-tally ks) (fun _ => True) (removeFreeAll options ks)
  | [] => by
    rw [removeFreeAll]
    exact (Changes.ret trivial).congr Iff.rfl (by simp)
  | k :: ks => by
    rw [removeFreeAll]
    exact ((changes_removeFree options k).bind fun _ _ => changes_removeFreeAll ks).congr
      (by simp) (by rw [tally_cons k ks]; abel)

theorem changes_forget (ks : List StackKind) :
    Changes True (-tally ks) (fun _ => True) (forget ks) :=
  (Changes.tryFollow (alters_foldlM (n := -1) (fun k => by
    rw [neg_one_zsmul]; exact alters_remove k (-1)) ks.reverse)).congr Iff.rfl (by simp)

theorem changes_claimAll (level : Nat) (ks : List StackKind) :
    Changes True 0 (fun _ => True) (claimAll level ks) :=
  (Changes.tryFollow (alters_foldlM (n := 0) (fun k => by
    rw [zero_zsmul]; exact alters_claim k level) ks.reverse)).congr Iff.rfl (by simp)

/-! ## Binders -/

/-- The slots of variables. -/
def frameSlots (vars : Typed) : List StackKind := vars.flatMap fun e => e.2.erase

@[simp] theorem frameSlots_nil : frameSlots [] = [] := rfl

@[simp] theorem frameSlots_append (vars vars' : Typed) :
    frameSlots (vars ++ vars') = frameSlots vars ++ frameSlots vars' :=
  List.flatMap_append

mutual

/-- Whether there is code that binds the variables of a pattern. -/
def bindable : Pattern → Prop
  | .int .. | .range .. | .wildcard _ | .var .. => True
  | .tuple _ ps => bindableAll ps
  | .compound _ fields => bindableFields fields
  | .list .. => False

/-- Whether there is code that binds the variables of several patterns. -/
def bindableAll : List Pattern → Prop
  | [] => True
  | p :: ps => bindableAll ps ∧ bindable p

/-- Whether there is code that binds the variables in the fields of a record. -/
def bindableFields : List (String × Pattern) → Prop
  | [] => True
  | (_, p) :: rest => HasContent p.ty ∧ bindable p ∧ bindableFields rest

end

mutual

/-- A binder puts the slots of its variables in place of those of what it takes apart. -/
theorem changes_bind : ∀ p : Pattern, patternKindsAgree p →
    Changes (bindable p) (tally (frameSlots (typedBinders p)) - tally p.ty.erase)
      (· = frameSlots (typedBinders p)) (bind options p)
  | .var info v, _ => by
    have hslots : frameSlots (typedBinders (.var info v)) = info.ty.erase :=
      List.flatMap_singleton ..
    rw [bind, hslots]
    exact ((changes_claimAll v.level info.ty.erase).bind fun _ _ => .ret rfl).mono
      (by simp [bindable]) (by simp [Pattern.ty, Pattern.info]) fun _ h => h.symm
  | .int info n, hp | .range info min max, hp => by
    have hk : info.ty.erase = [.int] := eq_of_beq hp
    rw [bind]
    exact ((changes_removeFree options .int).bind fun _ _ => .ret rfl).mono
      (by simp [bindable]) (by simp [typedBinders, Pattern.ty, Pattern.info, hk]) fun _ h => h.symm
  | .wildcard info, _ => by
    rw [bind]
    exact ((changes_removeFreeAll options info.ty.erase.reverse).bind fun _ _ => .ret rfl).mono
      (by simp [bindable]) (by simp [typedBinders, Pattern.ty, Pattern.info]) fun _ h => h.symm
  | .tuple info ps, hp => by
    rw [patternKindsAgree, Bool.and_eq_true, beq_iff_eq] at hp
    rw [bind]
    refine (changes_bindAll ps hp.2).congr (by rw [bindable]) ?_
    simp only [typedBinders, Pattern.ty, Pattern.info, hp.1]
  | .compound info fields, hp => by
    rw [patternKindsAgree, Bool.and_eq_true, beq_iff_eq] at hp
    rw [bind]
    refine ((Changes.ask fun _ _ => Slots.lastFree_error).bind fun record _ =>
      (changes_bindFields record fields hp.2).bind fun frame hframe => Changes.get.bind fun _ _ =>
        (changes_removeAt options .compound _ []).bind fun _ _ => .ret hframe).congr
      (by simp [bindable]) ?_
    simp only [typedBinders, Pattern.ty, Pattern.info, hp.1]
    abel
  | .list .., _ => by
    rw [bind]
    exact Changes.unsupported.congr (by simp [bindable]) rfl

theorem changes_bindAll : ∀ ps : List Pattern, patternsKindsAgree ps →
    Changes (bindableAll ps)
      (tally (frameSlots (typedBindersOfAll ps)) - tally (ps.flatMap fun p => p.ty.erase))
      (· = frameSlots (typedBindersOfAll ps)) (bindAll options ps)
  | [], _ => by
    rw [bindAll]
    exact (Changes.ret rfl).mono (by simp [bindableAll]) (by simp [typedBindersOfAll])
      fun _ h => h.symm
  | p :: ps, hp => by
    rw [patternsKindsAgree, Bool.and_eq_true] at hp
    rw [bindAll]
    refine ((changes_bindAll ps hp.2).bind fun frame hframe =>
      (changes_bind p hp.1).bind fun frame' hframe' => .ret ?_).congr
      (by simp [bindableAll]) ?_
    · rw [hframe, hframe', typedBindersOfAll, frameSlots_append]
    · simp only [typedBindersOfAll, frameSlots_append, List.flatMap_cons, tally_append]
      abel

theorem changes_bindFields (record : Nat) : ∀ fields : List (String × Pattern),
    fieldPatternsKindsAgree fields →
    Changes (bindableFields fields) (tally (frameSlots (typedBindersOfFields fields)))
      (· = frameSlots (typedBindersOfFields fields)) (bindFields options record fields)
  | [], _ => by
    rw [bindFields]
    exact (Changes.ret rfl).mono (by simp [bindableFields]) (by simp [typedBindersOfFields])
      fun _ h => h.symm
  | (key, p) :: rest, hp => by
    rw [fieldPatternsKindsAgree, Bool.and_eq_true] at hp
    rw [bindFields]
    -- the copy of the field has the slot that the binder takes apart
    have hfield : ∀ k, p.ty.erase = [k] → ∀ src : Source,
        Changes (bindable p ∧ bindableFields rest)
          (tally (frameSlots (typedBindersOfFields ((key, p) :: rest))))
          (· = frameSlots (typedBindersOfFields ((key, p) :: rest))) (do
            push options k src
            let frame ← bind options p
            return frame ++ (← bindFields options record rest)) := by
      intro k hk src
      refine ((changes_push options k src).bind fun _ _ => (changes_bind p hp.1).bind
        fun frame hframe => (changes_bindFields record rest hp.2).bind fun frame' hframe' =>
          .ret ?_).congr (by simp) ?_
      · rw [hframe, hframe', typedBindersOfFields, frameSlots_append]
      · simp only [typedBindersOfFields, frameSlots_append, tally_append, hk]
        abel
    exact ((Changes.oneSlot p.ty _).bind fun k hk => Changes.get.bind fun _ _ =>
      hfield k hk _).congr (by simp [bindableFields]) (by simp)

end

/-! ## Tests and variables -/

mutual

/-- Whether there is code that tests a value against a pattern. -/
def testable : Pattern → Prop
  | .int .. | .range .. | .wildcard _ | .var .. => True
  | .tuple _ ps => testableAll ps
  | .compound .. | .list .. => False

/-- Whether there is code that tests values against several patterns. -/
def testableAll : List Pattern → Prop
  | [] => True
  | p :: ps => testableAll ps ∧ testable p

end

theorem changes_testInt (range : ScoreRange) :
    Changes True (-tally [.int]) (fun _ => True) (testInt options range) := by
  unfold testInt
  exact ((Changes.emit _).bind fun _ _ => (changes_removeAt options .int _ []).bind fun _ _ =>
    Changes.emit _).congr (by simp) (by simp)

mutual

/-- A test takes out the slots of what it consumes. -/
theorem changes_test : ∀ p : Pattern, patternKindsAgree p →
    Changes (testable p) (-tally p.ty.erase) (fun _ => True) (test options p)
  | .int info n, hp | .range info min max, hp => by
    have hk : info.ty.erase = [.int] := eq_of_beq hp
    rw [test]
    exact (changes_testInt options _).congr (by simp [testable])
      (by rw [Pattern.ty, Pattern.info, hk])
  | .var info v, _ | .wildcard info, _ => by
    rw [test]
    exact (changes_dropAll options [] info.ty.erase.reverse).congr (by simp [testable])
      (by rw [tally_reverse]; rfl)
  | .tuple info ps, hp => by
    rw [patternKindsAgree, Bool.and_eq_true, beq_iff_eq] at hp
    rw [test]
    exact (changes_testAll ps hp.2).congr (by rw [testable])
      (by rw [Pattern.ty, Pattern.info, hp.1])
  | .compound .., _ | .list .., _ => by
    rw [test]
    exact Changes.unsupported.congr (by simp [testable]) rfl

theorem changes_testAll : ∀ ps : List Pattern, patternsKindsAgree ps →
    Changes (testableAll ps) (-tally (ps.flatMap fun p => p.ty.erase)) (fun _ => True)
      (testAll options ps)
  | [], _ => by
    rw [testAll]
    exact (Changes.ret trivial).congr (by simp [testableAll]) (by simp)
  | p :: ps, hp => by
    rw [patternsKindsAgree, Bool.and_eq_true] at hp
    rw [testAll]
    refine ((changes_testAll ps hp.2).bind fun _ _ => changes_test p hp.1).congr
      (by rw [testableAll]) ?_
    rw [List.flatMap_cons, tally_append]
    abel

end

theorem changes_copySlots (v : Var) : ∀ ks before : List StackKind,
    Changes True (tally ks) (fun _ => True) (copySlots options v before ks)
  | [], before => by
    rw [copySlots]
    exact .ret trivial
  | k :: rest, before => by
    rw [copySlots]
    refine (Changes.get.bind (T := True) (d := tally (k :: rest)) fun o _ => ?_).congr
      (by simp) (zero_add _)
    split
    · exact .defect rfl
    · exact ((changes_push options k _).bind fun _ _ => changes_copySlots v rest _).congr (by simp)
        (tally_cons k rest).symm

/-- Whether a captured variable can be stored. -/
def Storable (c : Capture) : Prop := c.ty.erase ≠ [.endTag] → HasContent c.ty

theorem changes_storeCaptures : ∀ captures : List Capture,
    Changes (∀ c ∈ captures, Storable c) 0 (fun _ => True) (storeCaptures captures)
  | [] => by
    rw [storeCaptures]
    exact (Changes.ret trivial).congr (by simp) rfl
  | c :: rest => by
    have hrest := changes_storeCaptures rest
    rw [storeCaptures]
    split
    · next hne =>
      refine ((Changes.oneSlot c.ty _).bind fun k _ => Changes.get.bind
        (T := ∀ c ∈ rest, Storable c) (d := 0) fun o _ => ?_).congr (by simp [Storable, hne])
        (by simp)
      dsimp only
      split
      · exact .defect rfl
      · exact ((Changes.emit _).bind fun _ _ => hrest).congr (by simp) (by simp)
    · next hend =>
      exact hrest.congr (by simp [Storable, not_not.1 hend]) rfl

theorem changes_jump (thenName elseName : DefName) :
    Changes True 0 (fun _ => True) (jump options thenName elseName) := by
  unfold jump
  exact ((Changes.emit _).bind fun _ _ => Changes.emit _).congr (by simp) (by simp)

/-! ## Terms -/

/-- The variables whose slots a let with a binder keeps. -/
def keptByBinder (p : Pattern) : Typed := if p.has .noDrop then typedBinders p else []

mutual

/-- The variables whose slots a term keeps: those of the lets that are marked so. -/
def kept : Term → Typed
  | .literal .. | .closure .. | .var .. | .command .. => []
  | .array _ _ es | .list _ es | .tuple _ es => keptByAll es
  | .compound _ fields => keptByFields fields
  | .ref _ e | .call _ _ e | .test _ e _ => kept e
  | .branch _ c a _ _ => kept c ++ kept a
  | .letIn _ p i b => kept i ++ keptByBinder p ++ kept b

/-- The variables whose slots several terms keep. -/
def keptByAll : List Term → Typed
  | [] => []
  | t :: ts => kept t ++ keptByAll ts

/-- The variables whose slots the fields of a record keep. -/
def keptByFields : List (String × Term) → Typed
  | [] => []
  | (_, t) :: rest => kept t ++ keptByFields rest

end

mutual

/-- Whether there is code for everything in a term. -/
def emittable : Term → Prop
  | .literal ty _ => HasContent ty
  | .array ty kind es => HasContent ty ∧ elementsEmittable kind es
  | .list _ es => itemsEmittable es
  | .compound _ fields => fieldsEmittable fields
  | .ref .. => False
  | .tuple _ es => allEmittable es
  | .closure _ _ captures => ∀ c ∈ captures, Storable c
  | .branch _ c a _ _ => emittable c ∧ emittable a
  | .letIn _ p i b => emittable i ∧ bindable p ∧ emittable b
  | .var .. | .command .. => True
  | .call _ _ a => emittable a
  | .test _ e p => emittable e ∧ testable p

/-- Whether there is code for everything in several terms. -/
def allEmittable : List Term → Prop
  | [] => True
  | t :: ts => emittable t ∧ allEmittable ts

/-- Whether there is code for the elements of an array that are computed. -/
def elementsEmittable (kind : ArrayKind) : List Term → Prop
  | [] => True
  | t :: ts => ((constant? kind t).isNone → HasContent t.ty ∧ emittable t) ∧
      elementsEmittable kind ts

/-- Whether there is code for the elements of a list. -/
def itemsEmittable : List Term → Prop
  | [] => True
  | t :: ts => (HasContent t.ty ∧ emittable t) ∧ itemsEmittable ts

/-- Whether there is code for the fields of a record. -/
def fieldsEmittable : List (String × Term) → Prop
  | [] => True
  | (_, t) :: rest => (HasContent t.ty ∧ emittable t) ∧ fieldsEmittable rest

end

theorem kept_of_constant? {kind : ArrayKind} {t : Term} (h : ¬(constant? kind t).isNone) :
    kept t = [] := by
  cases t <;> first | rfl | exact absurd rfl h

/-- A term of one slot is pushed, stored somewhere and dropped again. -/
theorem Changes.stored {t : Term} (h : Changes (emittable t)
      (tally t.ty.erase + tally (frameSlots (kept t))) (fun _ => True) (term options t))
    (what : String) (store : StackKind → Instruction) {rest : EmitM Unit} {S : Prop} {vars : Typed}
    (hrest : Changes S (tally (frameSlots vars)) (fun _ => True) rest) :
    Changes ((HasContent t.ty ∧ emittable t) ∧ S) (tally (frameSlots (kept t ++ vars)))
      (fun _ => True) (do
        let k ← Emit.oneSlot t.ty what
        term options t
        Emit.emit (store k)
        drop options k []
        rest) := by
  have hvalue : ∀ k, t.ty.erase = [k] → Changes (emittable t ∧ S)
      (tally (frameSlots (kept t ++ vars))) (fun _ => True) (do
        term options t
        Emit.emit (store k)
        drop options k []
        rest) := by
    intro k hk
    refine (h.bind fun _ _ => (Changes.emit _).bind fun _ _ =>
      (changes_removeAt options k _ []).bind fun _ _ => hrest).congr (by simp) ?_
    rw [hk, frameSlots_append, tally_append]
    abel
  exact ((Changes.oneSlot t.ty what).bind hvalue).congr and_assoc.symm (zero_add _)

/-- A let takes out the slots of its binder, unless it keeps them. -/
theorem changes_leave {p : Pattern} {frame : List StackKind}
    (hframe : frame = frameSlots (typedBinders p)) (ks : List StackKind) :
    Changes True (tally (frameSlots (keptByBinder p)) - tally (frameSlots (typedBinders p)))
      (fun _ => True)
      (if p.has .noDrop then follow fun s => p.binders.foldl (fun s v => s.release v.level) s
      else dropAll options ks frame.reverse) := by
  unfold keptByBinder
  split
  · exact (Changes.follow (c := 0) fun s j => by simp [Slots.length_foldl_release]).congr
      Iff.rfl (sub_self _).symm
  · rw [hframe]
    exact (changes_dropAll options _ _).congr Iff.rfl (by simp)

mutual

/-- A term adds the slots of its type and those that it keeps. -/
theorem changes_term : ∀ (t : Term) (Γ : List (Nat × List StackKind)), kindsAgree Γ t →
    Changes (emittable t) (tally t.ty.erase + tally (frameSlots (kept t))) (fun _ => True)
      (term options t)
  | .literal ty l, Γ, _ => by
    rw [term]
    refine ((Changes.oneSlot ty _).bind (T := True) (d := tally ty.erase) fun k hk => ?_).congr
      (by simp [emittable]) (by simp [kept, Term.ty])
    rw [hk]
    exact changes_push options k _
  | .array ty kind es, Γ, h => by
    rw [kindsAgree, Bool.and_eq_true] at h
    rw [term]
    refine ((Changes.oneSlot ty _).bind (T := elementsEmittable kind es)
      (d := tally ty.erase + tally (frameSlots (keptByAll es))) fun k hk => ?_).congr
      (by simp [emittable]) (by simp [kept, Term.ty])
    rw [hk]
    exact ((changes_push options k _).bind fun _ _ => changes_arrayElements k kind es 0 Γ h.2).congr
      (by simp) rfl
  | .list ty es, Γ, h => by
    rw [kindsAgree, Bool.and_eq_true, beq_iff_eq] at h
    rw [term]
    exact ((changes_push options .list _).bind fun _ _ => changes_listElements es Γ h.2).congr
      (by simp [emittable]) (by simp [kept, Term.ty, h.1])
  | .compound ty fields, Γ, h => by
    rw [kindsAgree, Bool.and_eq_true, beq_iff_eq] at h
    rw [term]
    exact ((changes_push options .compound _).bind fun _ _ =>
      changes_compoundFields fields Γ h.2).congr
      (by simp [emittable]) (by simp [kept, Term.ty, h.1])
  | .ref .., Γ, _ => by
    rw [term]
    exact Changes.unsupported.congr (by simp [emittable]) rfl
  | .tuple ty es, Γ, h => by
    rw [kindsAgree, Bool.and_eq_true, beq_iff_eq] at h
    rw [term]
    exact (changes_terms es Γ h.2).congr (by rw [emittable]) (by simp only [kept, Term.ty, h.1])
  | .closure ty tag captures, Γ, h => by
    rw [kindsAgree, Bool.and_eq_true, beq_iff_eq] at h
    rw [term]
    exact ((changes_push options .compound _).bind fun _ _ => changes_storeCaptures captures).congr
      (by simp [emittable]) (by simp [kept, Term.ty, h.1])
  | .branch ty c a thenName elseName, Γ, h => by
    rw [kindsAgree, Bool.and_eq_true, Bool.and_eq_true, beq_iff_eq] at h
    rw [term]
    refine ((changes_term c Γ h.1.2).bind fun _ _ => (Changes.emit _).bind fun _ _ =>
      (changes_removeAt options .byte _ []).bind fun _ _ => (changes_term a Γ h.2).bind fun _ _ =>
        (changes_jump options thenName elseName).bind fun _ _ =>
          (changes_forget a.ty.erase).bind fun _ _ => changes_pushAll ty.erase).congr
      (by simp [emittable]) ?_
    change _ = tally ty.erase + _
    simp only [kept, h.1.1, frameSlots_append, tally_append]
    abel
  | .letIn ty p i b, Γ, h => by
    simp only [kindsAgree, Bool.and_eq_true, beq_iff_eq] at h
    obtain ⟨⟨⟨⟨hpi, hp⟩, hi⟩, hb⟩, hbody⟩ := h
    rw [term]
    -- what is kept of the frame stays, the rest of it goes
    refine ((changes_term i Γ hi).bind fun _ _ => (changes_bind options p hp).bind
      (T := emittable b) (d := tally ty.erase + tally (frameSlots (kept b)) +
        (tally (frameSlots (keptByBinder p)) - tally (frameSlots (typedBinders p))))
      fun frame hframe => ?_).congr (by simp [emittable]) ?_
    · exact ((changes_term b _ hbody).bind fun _ _ => changes_leave options hframe _).congr
        (by simp) (by rw [hb])
    · change _ = tally ty.erase + _
      simp only [kept, hpi, frameSlots_append, tally_append]
      abel
  | .var ty v, Γ, _ => by
    rw [term]
    exact (changes_copySlots options v ty.erase []).congr (by simp [emittable])
      (by simp [kept, Term.ty])
  | .call ty name a, Γ, h => by
    rw [term]
    refine ((changes_term a Γ h).bind fun _ _ => (Changes.emit _).bind fun _ _ =>
      (changes_forget a.ty.erase).bind fun _ _ => changes_pushAll ty.erase).congr
      (by simp [emittable]) ?_
    change _ = tally ty.erase + tally (frameSlots (kept a))
    abel
  | .test ty e p, Γ, h => by
    simp only [kindsAgree, Bool.and_eq_true, beq_iff_eq] at h
    obtain ⟨⟨⟨hty, hpe⟩, hp⟩, he⟩ := h
    rw [term]
    refine ((changes_term e Γ he).bind fun _ _ => (Changes.emit _).bind fun _ _ =>
      (changes_test options p hp).bind fun _ _ => (changes_push options .byte _).bind fun _ _ =>
        Changes.emit _).congr (by simp [emittable]) ?_
    change _ = tally ty.erase + tally (frameSlots (kept e))
    rw [hty, hpe]
    abel
  | .command ty line, Γ, _ => by
    rw [term]
    exact ((Changes.comment options _).bind fun _ _ => (Changes.emit _).bind fun _ _ =>
      changes_pushAll ty.erase).congr (by simp [emittable]) (by simp [kept, Term.ty])

theorem changes_terms : ∀ (ts : List Term) (Γ : List (Nat × List StackKind)), allKindsAgree Γ ts →
    Changes (allEmittable ts)
      (tally (ts.flatMap fun t => t.ty.erase) + tally (frameSlots (keptByAll ts))) (fun _ => True)
      (terms options ts)
  | [], Γ, _ => by
    rw [terms]
    exact (Changes.ret trivial).congr (by simp [allEmittable]) (by simp [keptByAll])
  | t :: ts, Γ, h => by
    rw [allKindsAgree, Bool.and_eq_true] at h
    rw [terms]
    refine ((changes_term t Γ h.1).bind fun _ _ => changes_terms ts Γ h.2).congr
      (by rw [allEmittable]) ?_
    simp only [List.flatMap_cons, keptByAll, frameSlots_append, tally_append]
    abel

theorem changes_arrayElements (shell : StackKind) (kind : ArrayKind) : ∀ (ts : List Term)
    (index : Nat) (Γ : List (Nat × List StackKind)), allKindsAgree Γ ts →
    Changes (elementsEmittable kind ts) (tally (frameSlots (keptByAll ts))) (fun _ => True)
      (arrayElements options shell kind index ts)
  | [], index, Γ, _ => by
    rw [arrayElements]
    exact (Changes.ret trivial).congr (by simp [elementsEmittable]) (by simp [keptByAll])
  | t :: ts, index, Γ, h => by
    rw [allKindsAgree, Bool.and_eq_true] at h
    have hrest := changes_arrayElements shell kind ts (index + 1) Γ h.2
    rw [arrayElements]
    split
    · next hcomputed =>
      exact ((changes_term t Γ h.1).stored options _ _ hrest).congr
        (by simp [elementsEmittable, hcomputed]) (by rw [keptByAll])
    · next hconstant =>
      exact hrest.congr (by simp [elementsEmittable, hconstant])
        (by rw [keptByAll, kept_of_constant? hconstant, List.nil_append])

theorem changes_listElements : ∀ (ts : List Term) (Γ : List (Nat × List StackKind)),
    allKindsAgree Γ ts →
    Changes (itemsEmittable ts) (tally (frameSlots (keptByAll ts))) (fun _ => True)
      (listElements options ts)
  | [], Γ, _ => by
    rw [listElements]
    exact (Changes.ret trivial).congr (by simp [itemsEmittable]) (by simp [keptByAll])
  | t :: ts, Γ, h => by
    rw [allKindsAgree, Bool.and_eq_true] at h
    rw [listElements]
    exact ((changes_term t Γ h.1).stored options _ _ (changes_listElements ts Γ h.2)).congr
      (by rw [itemsEmittable]) (by rw [keptByAll])

theorem changes_compoundFields : ∀ (fields : List (String × Term))
    (Γ : List (Nat × List StackKind)), fieldKindsAgree Γ fields →
    Changes (fieldsEmittable fields) (tally (frameSlots (keptByFields fields))) (fun _ => True)
      (compoundFields options fields)
  | [], Γ, _ => by
    rw [compoundFields]
    exact (Changes.ret trivial).congr (by simp [fieldsEmittable]) (by simp [keptByFields])
  | (key, t) :: rest, Γ, h => by
    rw [fieldKindsAgree, Bool.and_eq_true] at h
    rw [compoundFields]
    exact ((changes_term t Γ h.1).stored options _ _ (changes_compoundFields rest Γ h.2)).congr
      (by rw [fieldsEmittable]) (by rw [keptByFields])

end

/-! ## Functions -/

theorem forM_spec {g : StackKind → Except Error Unit} {P : StackKind → Prop}
    (hg : ∀ k, match g k with
      | .ok _ => P k
      | .error e => e.isDefect = true) (kinds : List StackKind) :
    match kinds.forM g with
    | .ok _ => ∀ k ∈ kinds, P k
    | .error e => e.isDefect = true := by
  induction kinds with
  | nil => exact fun k hk => nomatch hk
  | cons k kinds ih =>
    have hk := hg k
    change match (g k >>= fun _ => kinds.forM g) with
      | .ok _ => ∀ j ∈ k :: kinds, P j
      | .error e => e.isDefect = true
    cases hr : g k with
    | error e =>
      rw [hr] at hk
      exact hk
    | ok u =>
      rw [hr] at hk
      change match kinds.forM g with
        | .ok _ => ∀ j ∈ k :: kinds, P j
        | .error e => e.isDefect = true
      split at ih
      · exact List.forall_mem_cons.2 ⟨hk, ih⟩
      · exact ih

/-- The check of what is left counts the slots of every kind. If it fails, that is a defect. -/
theorem checkShape_spec (name : DefName) (ks : List StackKind) (s : Slots) :
    match checkShape name ks s with
    | .ok _ => ∀ k, ks.count k = s.length k
    | .error e => e.isDefect = true := by
  have hall := forM_spec (g := fun k => if ks.count k = s.length k then .ok ()
    else .error (.shapeMismatch name.text k (ks.count k) (s.length k)))
    (P := fun k => ks.count k = s.length k) (fun k => ?_) StackKind.all
  · unfold checkShape
    split at hall
    · next hr =>
      rw [hr]
      exact fun k => hall k (by cases k <;> decide)
    · next hr =>
      rw [hr]
      exact hall
  · by_cases hk : ks.count k = s.length k
    · rw [if_pos hk]
      exact hk
    · rw [if_neg hk]
      rfl

/-- A computation that succeeds has met nothing unsupported and has started with as many slots of
each kind as said. If it fails although nothing is unsupported, that is a defect. -/
structure Demands (S : Prop) (c : StackKind → Int) (x : EmitM Unit) : Prop where
  run : ∀ o : Output,
    match x o with
    | .ok _ => S ∧ ∀ k, (o.slots.length k : Int) = c k
    | .error e => S → e.isDefect = true

theorem Demands.congr {S T : Prop} {c d : StackKind → Int} {x : EmitM Unit} (h : Demands S c x)
    (hS : S ↔ T) (hc : c = d) : Demands T d x := by
  subst hc
  refine ⟨fun o => ?_⟩
  have hx := h.run o
  split at hx
  · exact ⟨hS.1 hx.1, hx.2⟩
  · exact fun hs => hx (hS.2 hs)

theorem Changes.demands {α : Type} {S T : Prop} {c d : StackKind → Int} {Q : α → Prop}
    {x : EmitM α} {f : α → EmitM Unit} (hx : Changes S c Q x)
    (hf : ∀ a, Q a → Demands T d (f a)) : Demands (S ∧ T) (d - c) (x >>= f) := by
  refine ⟨fun o => ?_⟩
  have hx := hx.run o
  change match (x o >>= fun r => f r.1 r.2) with
    | .ok _ => (S ∧ T) ∧ ∀ k, (o.slots.length k : Int) = (d - c) k
    | .error e => S ∧ T → e.isDefect = true
  cases hr : x o with
  | error e =>
    rw [hr] at hx
    exact fun hs => hx hs.1
  | ok r =>
    rw [hr] at hx
    obtain ⟨hs, ha, hlen⟩ := hx
    have hf := (hf r.1 ha).run r.2
    change match f r.1 r.2 with
      | .ok _ => (S ∧ T) ∧ ∀ k, (o.slots.length k : Int) = (d - c) k
      | .error e => S ∧ T → e.isDefect = true
    split at hf
    · refine ⟨⟨hs, hf.1⟩, fun k => ?_⟩
      have h₁ := hlen k
      have h₂ := hf.2 k
      rw [Pi.sub_apply]
      omega
    · exact fun hs => hf hs.2

/-- The check of what is left demands the slots expected. -/
theorem demands_checkShape (name : DefName) (ks : List StackKind) {S : Prop}
    {c : StackKind → Int} {Q : Unit → Prop} {rest : EmitM Unit} (hrest : Changes S c Q rest) :
    Demands S (tally ks) (ask (checkShape name ks) >>= fun _ => rest) := by
  refine ⟨fun o => ?_⟩
  have hcheck := checkShape_spec name ks o.slots
  change match ((liftM (checkShape name ks o.slots) : EmitM Unit) o >>= fun r => rest r.2) with
    | .ok _ => S ∧ ∀ k, (o.slots.length k : Int) = tally ks k
    | .error e => S → e.isDefect = true
  cases hr : checkShape name ks o.slots with
  | error e =>
    rw [hr] at hcheck
    exact fun _ => hcheck
  | ok u =>
    rw [hr] at hcheck
    have hrest := hrest.run o
    change match rest o with
      | .ok _ => S ∧ ∀ k, (o.slots.length k : Int) = tally ks k
      | .error e => S → e.isDefect = true
    split at hrest
    · next hs =>
      rw [hs]
      exact ⟨hrest.1, fun k => congrArg Int.ofNat (hcheck k).symm⟩
    · next hs =>
      rw [hs]
      exact hrest

/-- Whether the kinds in a function agree: in its binder, in its body under the binder, and of the
body and the result. -/
def functionKindsAgree (f : Flat.Function) : Bool :=
  patternKindsAgree f.binder && kindsAgree (Scoped.bind [] f.binder).kinds f.body &&
    f.body.ty.erase == f.result.erase

theorem changes_restore (restore : Option Int32) :
    Changes True 0 (fun _ => True) (match restore with
      | some n => emit (.setScore .result n)
      | none => pure ()) := by
  cases restore with
  | some n => exact .emit _
  | none => exact .ret trivial

/-- The slots that a body keeps would have to be missing before the function. -/
theorem demands_functionBody {f : Flat.Function} (hf : functionKindsAgree f) :
    Demands (bindable f.binder ∧ emittable f.body) (-tally (frameSlots (kept f.body)))
      (functionBody options f) := by
  simp only [functionKindsAgree, Bool.and_eq_true, beq_iff_eq] at hf
  obtain ⟨⟨hp, hb⟩, hresult⟩ := hf
  -- after the body there are the slots of the binder under those of the result
  have hend : ∀ (frame : List StackKind) {onExit : EmitM Unit},
      Changes True 0 (fun _ => True) onExit →
      Demands True (tally f.result.erase + tally frame) (do
        if f.has .noDrop || f.binder.has .noDrop then
          ask (checkShape f.name (frame ++ f.result.erase))
        else
          dropAll options f.result.erase frame.reverse
          ask (checkShape f.name f.result.erase)
        onExit) := by
    intro frame onExit hexit
    by_cases hkeeps : (f.has .noDrop || f.binder.has .noDrop) = true
    · rw [if_pos hkeeps]
      exact (demands_checkShape f.name _ hexit).congr Iff.rfl (by rw [tally_append, add_comm])
    · rw [if_neg hkeeps]
      exact ((changes_dropAll options _ _).demands fun _ _ =>
        demands_checkShape f.name _ hexit).congr (by simp) (by simp)
  unfold functionBody
  refine ((Changes.comment options _).demands fun _ _ => (changes_pushAll f.binder.ty.erase).demands
    fun _ _ => (changes_bind options f.binder hp).demands (T := emittable f.body)
      (d := tally (frameSlots (typedBinders f.binder)) - tally (frameSlots (kept f.body)))
      fun frame hframe => ?_).congr (by simp) (by abel)
  refine ((changes_term options f.body _ hb).demands fun _ _ =>
    hend frame (changes_restore f.restore)).congr (by simp) ?_
  rw [hresult, hframe]
  abel

/-- What a function that is emitted has met, and one that is not. -/
theorem function_spec {f : Flat.Function} (hf : functionKindsAgree f) :
    match function options f with
    | .ok _ => (bindable f.binder ∧ emittable f.body) ∧ frameSlots (kept f.body) = []
    | .error e => bindable f.binder ∧ emittable f.body → e.isDefect = true := by
  have hrun := (demands_functionBody options hf).run ⟨.empty, #[]⟩
  have hcode : function options f =
      (functionBody options f ⟨.empty, #[]⟩).map fun r => r.2.instructions.toList := by
    unfold function StateT.run
    cases functionBody options f ⟨.empty, #[]⟩ <;> rfl
  rw [hcode]
  split at hrun
  · next hr =>
    rw [hr]
    refine ⟨hrun.1, List.eq_nil_iff_forall_not_mem.2 fun k hk => ?_⟩
    have hcount := List.count_pos_iff.2 hk
    have hlen := hrun.2 k
    have hempty : Slots.empty.length k = 0 := by cases k <;> rfl
    simp only [hempty, tally, Pi.neg_apply] at hlen
    omega
  · next hr =>
    rw [hr]
    exact hrun

end

end Stagecraft.Emit
