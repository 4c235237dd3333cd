import Mathlib.Data.List.DropRight
import Stagecraft.Proofs.Frames

/-!
# Positions and indices of slots

Slots are addressed by indices that count from the top of a stack, and are counted by positions
from its bottom. An index names at most one position (`position?_relative`), and what is removed at
the index of a position is the slot there and no other (`remove_relative`). The model looks for the
slots of a variable from the top; what it finds are the indices of the topmost ones in the order of
their positions (`find?_eq`). None of this depends on how a model came about, so it holds after any
operations (`finds_slots`).
-/

namespace Stagecraft.Emit

open Target (StackKind PerKind)

/-- Places counted from the end are places in the reversed list. -/
theorem findIdxs_reverse {α : Type} (p : α → Bool) (xs : List α) :
    xs.reverse.findIdxs p = ((xs.findIdxs p).map (xs.length - 1 - ·)).reverse := by
  induction xs with
  | nil => rfl
  | cons x xs ih =>
    have hshift : (xs.findIdxs p 1).map (xs.length - ·) =
        (xs.findIdxs p).map (xs.length - 1 - ·) := by
      rw [List.findIdxs_start, List.map_map]
      exact List.map_congr_left fun i _ => by simp only [Function.comp_apply]; omega
    rw [List.reverse_cons, List.findIdxs_append, ih, List.length_reverse, Nat.zero_add,
      List.findIdxs_singleton, List.findIdxs_cons, List.length_cons, Nat.add_sub_cancel]
    by_cases h : p x <;> simp [h, hshift]

theorem reverse_eraseIdx {α : Type} {xs : List α} {p : Nat} (h : p < xs.length) :
    (xs.eraseIdx (xs.length - 1 - p)).reverse = xs.reverse.eraseIdx p := by
  rw [List.eraseIdx_eq_take_drop_succ, List.eraseIdx_eq_take_drop_succ, List.reverse_append,
    List.take_reverse, List.drop_reverse]
  congr 3 <;> omega

namespace Slots

/-- The slots of a stack from the bottom up. -/
def fromBottom (s : Slots) (k : StackKind) : List Slot := (s.stack k).reverse

/-- The position that an index names. -/
def position? (s : Slots) (k : StackKind) (i : Int32) : Option Nat :=
  (s.depth? k i).map (s.length k - 1 - ·)

/-- The positions of the slots that are bound to a level, from the bottom up. -/
def boundPositions (s : Slots) (k : StackKind) (level : Nat) : List Nat :=
  (s.fromBottom k).idxsOf (.bound level)

variable {s s' : Slots} {k : StackKind} {level arity i p : Nat}

theorem length_fromBottom (s : Slots) (k : StackKind) : (s.fromBottom k).length = s.length k :=
  List.length_reverse

theorem length_boundPositions (s : Slots) (k : StackKind) (level : Nat) :
    (s.boundPositions k level).length = (s.stack k).count (.bound level) := by
  rw [boundPositions, List.length_idxsOf, fromBottom, List.count_reverse]

theorem mem_boundPositions (h : p ∈ s.boundPositions k level) :
    (s.fromBottom k)[p]? = some (.bound level) := by
  obtain ⟨hp, hslot⟩ := List.mem_idxsOf_iff_exists_getElem_pos.1 h
  rw [List.getElem?_eq_getElem hp, beq_iff_eq.1 hslot]

/-! ## Indices -/

/-- The index of a position, said from the top. -/
theorem relative_eq (h : p < s.length k) :
    s.relative k p = -1 - Int32.ofNat (s.length k - 1 - p) := by
  have hlen : s.length k = p + (s.length k - 1 - p) + 1 := by omega
  have hofNat : Int32.ofNat (s.length k) =
      Int32.ofNat p + Int32.ofNat (s.length k - 1 - p) + 1 := by
    refine (congrArg Int32.ofNat hlen).trans ?_
    rw [Int32.ofNat_add, Int32.ofNat_add]
    rfl
  rw [relative, hofNat]
  grind

/-- The topmost 2³¹ positions of a stack have an index that names them. -/
theorem position?_relative (h : p < s.length k) :
    s.position? k (s.relative k p) = some p ↔ s.length k - p ≤ 2 ^ 31 := by
  constructor
  · intro hp
    obtain ⟨d, hd, hdp⟩ := Option.map_eq_some_iff.1 hp
    rw [depth?] at hd
    split at hd
    · -- No index lies further from the top than 32 bits can say.
      have hlow := Int32.le_toInt (s.relative k p)
      rw [Option.some.injEq] at hd
      omega
    · cases hd
  · intro hreach
    have htoInt := toInt_fromTop (d := s.length k - 1 - p) (by omega)
    rw [position?, depth?, relative_eq h, htoInt, if_pos (by omega), Option.map_some,
      Option.some.injEq]
    omega

/-- Every position has an index that names it exactly if the stack has at most 2³¹ slots. -/
theorem forall_position?_relative (s : Slots) (k : StackKind) :
    (∀ p < s.length k, s.position? k (s.relative k p) = some p) ↔ s.length k ≤ 2 ^ 31 := by
  constructor
  · intro h
    rcases Nat.eq_zero_or_pos (s.length k) with hzero | hpos
    · omega
    · exact (position?_relative hpos).1 (h 0 hpos)
  · intro h p hp
    exact (position?_relative hp).2 (by omega)

/-- What is removed at the index of a position is the slot there. The others keep their order, and
other stacks are left alone. -/
theorem remove_relative {slot : Slot} (hslot : (s.fromBottom k)[p]? = some slot)
    (hreach : s.length k - p ≤ 2 ^ 31) :
    ∃ s', s.remove k (s.relative k p) = .ok (slot, s') ∧
      s'.fromBottom k = (s.fromBottom k).eraseIdx p ∧ ∀ j, j ≠ k → s'.stack j = s.stack j := by
  have hp : p < s.length k := length_fromBottom s k ▸ (List.getElem?_eq_some_iff.1 hslot).1
  obtain ⟨d, hd, hdp⟩ := Option.map_eq_some_iff.1 ((position?_relative hp).2 hreach)
  have hlt : d < s.length k := by
    rw [depth?] at hd
    split at hd
    · rw [Option.some.injEq] at hd
      omega
    · cases hd
  have hdepth : d = (s.stack k).length - 1 - p := by
    rw [← length]
    omega
  have hget : (s.stack k)[d]? = some slot := by
    rw [← hslot, fromBottom, List.getElem?_reverse hp, hdepth]
  refine ⟨⟨s.byKind.update k (·.eraseIdx d)⟩, ?_, ?_, fun j hj => ?_⟩
  · rw [remove, hd]
    simp only [hget]
  · rw [fromBottom, stack_update, if_pos rfl, hdepth]
    exact reverse_eraseIdx hp
  · rw [stack_update, if_neg (Ne.symm hj)]

/-! ## The slots of a variable -/

theorem boundDepths_eq (s : Slots) (k : StackKind) (level : Nat) :
    s.boundDepths k level = (s.stack k).idxsOf (.bound level) := by
  rw [List.idxsOf_eq_filterMap_zipIdx, boundDepths]
  refine congrArg (List.filterMap · _) (funext fun e => ?_)
  by_cases h : e.1 = .bound level
  · simp [h]
  · rw [if_neg h, beq_eq_false_iff_ne.2 h, cond_false]

/-- How many slots lie above each slot of a level is what the positions say, read downwards. -/
theorem boundPositions_eq (s : Slots) (k : StackKind) (level : Nat) :
    s.boundPositions k level = ((s.boundDepths k level).map (s.length k - 1 - ·)).reverse := by
  rw [boundDepths_eq, boundPositions, fromBottom, List.idxsOf, findIdxs_reverse, List.idxsOf,
    length]

/-- Counted from the bottom of the topmost positions of a level, or down from the top of the
stack. -/
theorem getElem?_rtake_boundPositions (hi : i < arity)
    (harity : arity ≤ (s.stack k).count (.bound level)) :
    ((s.boundPositions k level).rtake arity)[i]? =
      (s.boundDepths k level)[arity - 1 - i]?.map (s.length k - 1 - ·) := by
  have hlen : (s.boundDepths k level).length = (s.stack k).count (.bound level) := by
    rw [boundDepths_eq, List.length_idxsOf]
  rw [List.rtake, List.getElem?_drop, length_boundPositions, boundPositions_eq,
    List.getElem?_reverse (by rw [List.length_map]; omega), List.getElem?_map, List.length_map,
    hlen]
  congr 2
  omega

/-- The model finds the index of a slot among the topmost ones of a level, if there are so many. -/
theorem find?_eq (hi : i < arity) (harity : arity ≤ (s.stack k).count (.bound level)) :
    ∃ p, ((s.boundPositions k level).rtake arity)[i]? = some p ∧
      s.find? k level i arity = some (s.relative k p) := by
  have hlen : (s.boundDepths k level).length = (s.stack k).count (.bound level) := by
    rw [boundDepths_eq, List.length_idxsOf]
  have hlt : arity - 1 - i < (s.boundDepths k level).length := by omega
  obtain ⟨d, hd⟩ : ∃ d, (s.boundDepths k level)[arity - 1 - i]? = some d :=
    ⟨_, List.getElem?_eq_getElem hlt⟩
  have hdlt : d < s.length k := by
    have hmem := List.mem_of_getElem? hd
    rw [boundDepths_eq] at hmem
    exact (List.mem_idxsOf_iff_exists_getElem_pos.1 hmem).1
  refine ⟨s.length k - 1 - d, ?_, ?_⟩
  · rw [getElem?_rtake_boundPositions hi harity, hd, Option.map_some]
  · have hback : s.length k - 1 - (s.length k - 1 - d) = d := by omega
    rw [find?, if_pos ⟨hlen ▸ harity, hi⟩, hd, Option.map_some, relative_eq (by omega), hback]

theorem find?_eq_none (harity : ¬arity ≤ (s.stack k).count (.bound level)) :
    s.find? k level i arity = none := by
  rw [find?, if_neg]
  rw [boundDepths_eq, List.length_idxsOf]
  exact fun h => harity h.1

end Slots

/-! ## Histories of a model -/

/-- What emission does to a model. -/
inductive Operation where
  | push (k : StackKind)
  | claim (k : StackKind) (level : Nat)
  | release (level : Nat)
  | remove (k : StackKind) (index : Int32)

/-- The model after an operation. One that fails changes nothing. -/
def Operation.apply (s : Slots) : Operation → Slots
  | .push k => s.push k
  | .claim k level =>
    match s.claim k level with
    | .ok s' => s'
    | .error _ => s
  | .release level => s.release level
  | .remove k index =>
    match s.remove k index with
    | .ok (_, s') => s'
    | .error _ => s

/-- The model after operations on empty stacks. -/
def Slots.after (ops : List Operation) : Slots := ops.foldl Operation.apply .empty

/-- After any operations, a level has an index for each of `arity` slots of a kind exactly if so
many are bound to it. Indices have 32 bits; on a stack that is not larger than they reach, the `i`th
index removes the `i`th slot, from the bottom, of the topmost `arity` ones of the level and nothing
else, and every position comes back from its index. -/
theorem finds_slots (ops : List Operation) (k : StackKind) (level : Nat) {arity i : Nat}
    (hi : i < arity) :
    ((∃ index, (Slots.after ops).find? k level i arity = some index) ↔
      arity ≤ ((Slots.after ops).stack k).count (.bound level)) ∧
    ((Slots.after ops).length k ≤ 2 ^ 31 →
      (∀ index, (Slots.after ops).find? k level i arity = some index → ∃ p s',
        (((Slots.after ops).boundPositions k level).rtake arity)[i]? = some p ∧
        (Slots.after ops).remove k index = .ok (.bound level, s') ∧
        s'.fromBottom k = ((Slots.after ops).fromBottom k).eraseIdx p ∧
        ∀ j, j ≠ k → s'.fromBottom j = (Slots.after ops).fromBottom j) ∧
      ∀ p < (Slots.after ops).length k,
        (Slots.after ops).position? k ((Slots.after ops).relative k p) = some p) := by
  -- The history does not matter: what is said holds of every model.
  generalize Slots.after ops = s
  by_cases harity : arity ≤ (s.stack k).count (.bound level)
  · obtain ⟨p, hp, hfind⟩ := Slots.find?_eq hi harity
    refine ⟨⟨fun _ => harity, fun _ => ⟨_, hfind⟩⟩, fun hsize =>
      ⟨fun index hindex => ?_, (s.forall_position?_relative k).2 hsize⟩⟩
    have hslot : (s.fromBottom k)[p]? = some (.bound level) :=
      Slots.mem_boundPositions (List.drop_subset _ _ (List.mem_of_getElem? hp))
    obtain ⟨s', hremove, hbottom, hother⟩ := Slots.remove_relative hslot (by omega)
    rw [hfind, Option.some.injEq] at hindex
    exact ⟨p, s', hp, hindex ▸ hremove, hbottom, fun j hj => congrArg List.reverse (hother j hj)⟩
  · have hnone := Slots.find?_eq_none (i := i) harity
    refine ⟨⟨fun ⟨_, h⟩ => ?_, fun h => absurd h harity⟩, fun hsize =>
      ⟨fun _ h => ?_, (s.forall_position?_relative k).2 hsize⟩⟩
    · rw [hnone] at h
      cases h
    · rw [hnone] at h
      cases h

/-- Three slots of level 7 with others between them, after one slot was removed from the middle and
one was released. -/
def crowded : List Operation :=
  [.push .int, .claim .int 7, .push .int, .claim .int 3, .push .int, .claim .int 5, .push .int,
    .claim .int 7, .push .int, .claim .int 9, .push .int, .claim .int 7, .remove .int (-2),
    .push .int, .release 5]

theorem finds_slots_crowded : 0 < 2 ∧ (Slots.after crowded).length .int ≤ 2 ^ 31 ∧
    (Slots.after crowded).fromBottom .int = [.bound 7, .bound 3, .free, .bound 7, .bound 7, .free] ∧
    (Slots.after crowded).find? .int 7 0 2 = some (-3) ∧
    ∃ s', (Slots.after crowded).remove .int (-3) = .ok (.bound 7, s') ∧
      s'.fromBottom .int = [.bound 7, .bound 3, .free, .bound 7, .free] := by
  have hsize : (Slots.after crowded).length .int ≤ 2 ^ 31 := by decide +kernel
  have hfind : (Slots.after crowded).find? .int 7 0 2 = some (-3) := by decide +kernel
  have hposition : (((Slots.after crowded).boundPositions .int 7).rtake 2)[0]? = some 3 := by
    decide +kernel
  obtain ⟨p, s', hp, hremove, hbottom, -⟩ :=
    ((finds_slots crowded .int 7 (by decide : 0 < 2)).2 hsize).1 _ hfind
  cases hp.symm.trans hposition
  exact ⟨by decide, hsize, by decide +kernel, hfind, s', hremove,
    hbottom.trans (by decide +kernel)⟩

end Stagecraft.Emit
