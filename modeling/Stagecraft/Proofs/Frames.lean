import Mathlib.Algebra.Group.Nat.Defs
import Stagecraft.Emit.Slots
import Stagecraft.Proofs.MachineLogic

/-!
# Slots and what they hold

The slot model says what every slot is for, the machine says what is in it. A frame says both, and
`Matches` ties it to a model and a state. Slots of kind `end` are in the model only.

Frames are put together from pieces with `++`, the upper piece first: `held` is the piece of the
cells of one value, `ofBindings` the piece of the variables of a scope. The operations of the model
and of the machine are described on a frame that is cut at the slot they work on.
-/

namespace Stagecraft.Emit

open Target (StackKind PerKind Nbt PathNode DataPath Source)
open Machine (State)

/-- The slots of a value in the order they are pushed, each with what it holds. -/
abbrev Cells := List (StackKind × Nbt)

/-- What every slot is for and holds. -/
@[ext] structure Frame where
  /-- The slots of a stack, from the top down. -/
  on : StackKind → List (Slot × Nbt)

namespace Frame

instance : Append Frame := ⟨fun F G => ⟨fun k => F.on k ++ G.on k⟩⟩

/-- No slots. -/
def empty : Frame := ⟨fun _ => []⟩

@[simp] theorem on_append (F G : Frame) (k : StackKind) : (F ++ G).on k = F.on k ++ G.on k := rfl

@[simp] theorem on_empty (k : StackKind) : empty.on k = [] := rfl

theorem ext_on {F G : Frame} (h : ∀ k, F.on k = G.on k) : F = G :=
  Frame.ext (funext h)

@[simp] theorem append_empty (F : Frame) : F ++ empty = F :=
  ext_on fun k => List.append_nil (F.on k)

@[simp] theorem empty_append (F : Frame) : empty ++ F = F := rfl

theorem append_assoc (F G H : Frame) : F ++ G ++ H = F ++ (G ++ H) :=
  ext_on fun k => List.append_assoc (F.on k) (G.on k) (H.on k)

/-- The slots of cells, all for the same. -/
def held (slot : Slot) (cs : Cells) : Frame where
  on k := ((cs.filter (·.1 = k)).map fun c => (slot, c.2)).reverse

@[simp] theorem held_nil (slot : Slot) : held slot [] = empty := rfl

theorem held_append (slot : Slot) (cs ds : Cells) :
    held slot (cs ++ ds) = held slot ds ++ held slot cs :=
  ext_on fun k => by simp [held]

theorem on_held_singleton (slot : Slot) (k : StackKind) (v : Nbt) (j : StackKind) :
    (held slot [(k, v)]).on j = if k = j then [(slot, v)] else [] := by
  by_cases h : k = j <;> simp [held, h]

theorem length_held (slot : Slot) (cs : Cells) (k : StackKind) :
    ((held slot cs).on k).length = (cs.map (·.1)).count k := by
  induction cs with
  | nil => rfl
  | cons c cs ih =>
    have h : held slot (c :: cs) = held slot cs ++ held slot [c] := held_append slot [c] cs
    rw [h, on_append, List.length_append, ih, on_held_singleton, List.map_cons, List.count_cons]
    by_cases hk : c.1 = k <;> simp [hk]

/-- The pieces of variables, the topmost first. -/
def ofBindings : List (Nat × Cells) → Frame
  | [] => empty
  | (l, vs) :: rest => held (.bound l) vs ++ ofBindings rest

@[simp] theorem ofBindings_nil : ofBindings [] = empty := rfl

theorem ofBindings_cons (l : Nat) (vs : Cells) (rest : List (Nat × Cells)) :
    ofBindings ((l, vs) :: rest) = held (.bound l) vs ++ ofBindings rest := rfl

theorem ofBindings_append (xs ys : List (Nat × Cells)) :
    ofBindings (xs ++ ys) = ofBindings xs ++ ofBindings ys := by
  induction xs with
  | nil => rfl
  | cons x xs ih => rw [List.cons_append, ofBindings_cons, ofBindings_cons, ih, append_assoc]

/-- The slots of variables alone. -/
def bound (F : Frame) : Frame := ⟨fun k => (F.on k).filter fun e => e.1 ≠ .free⟩

@[simp] theorem bound_append (F G : Frame) : (F ++ G).bound = F.bound ++ G.bound :=
  ext_on fun k => by simp [bound]

@[simp] theorem bound_held_free (cs : Cells) : (held .free cs).bound = empty :=
  ext_on fun k => List.filter_eq_nil_iff.2 fun e he => by
    simp only [held, List.mem_reverse, List.mem_map] at he
    obtain ⟨-, -, rfl⟩ := he
    simp

@[simp] theorem bound_held_bound (l : Nat) (cs : Cells) :
    (held (.bound l) cs).bound = held (.bound l) cs :=
  ext_on fun k => List.filter_eq_self.2 fun e he => by
    simp only [held, List.mem_reverse, List.mem_map] at he
    obtain ⟨-, -, rfl⟩ := he
    simp

@[simp] theorem bound_ofBindings (ρ : List (Nat × Cells)) :
    (ofBindings ρ).bound = ofBindings ρ := by
  induction ρ with
  | nil => rfl
  | cons b ρ ih => rw [ofBindings_cons, bound_append, bound_held_bound, ih]

/-- The uses of the slots. -/
def uses (F : Frame) : StackKind → List Slot := fun k => (F.on k).map (·.1)

/-- What the machine has on its stacks. -/
def values (F : Frame) : StackKind → List Nbt := fun k =>
  if k = .endTag then [] else (F.on k).map (·.2)

theorem uses_append (F G : Frame) (k : StackKind) : (F ++ G).uses k = F.uses k ++ G.uses k :=
  List.map_append

theorem values_append (F G : Frame) (k : StackKind) :
    (F ++ G).values k = F.values k ++ G.values k := by
  by_cases h : k = .endTag <;> simp [values, h]

theorem values_of_ne (F : Frame) {k : StackKind} (hk : k ≠ .endTag) :
    F.values k = (F.on k).map (·.2) := if_neg hk

/-- What the machine has does not depend on what slots are for. -/
theorem values_held (slot slot' : Slot) (cs : Cells) :
    (held slot cs).values = (held slot' cs).values := by
  funext k
  by_cases h : k = .endTag <;> simp [values, h, held, Function.comp_def]

end Frame

open Emit.Frame (held ofBindings)

/-- The model and the state agree with a frame. -/
structure Matches (F : Frame) (slots : Slots) (s : State) : Prop where
  uses : slots.stack = F.uses
  values : s.stack = F.values

/-- Another value in a slot is nothing to the model. -/
theorem Matches.replace {A R : Frame} {use : Slot} {k : StackKind} {v w : Nbt} {slots : Slots}
    {s s' : State} (h : Matches (A ++ held use [(k, v)] ++ R) slots s)
    (hs : s'.stack = (A ++ held use [(k, w)] ++ R).values) :
    Matches (A ++ held use [(k, w)] ++ R) slots s' := by
  refine ⟨h.uses.trans (funext fun j => ?_), hs⟩
  simp only [Frame.uses_append]
  by_cases hj : k = j <;> simp [Frame.uses, Frame.on_held_singleton, hj]

/-! ## Indices -/

theorem toInt_fromTop {d : Nat} (h : d < 2 ^ 31) :
    ((-1 : Int32) - Int32.ofNat d).toInt = -1 - (d : Int) := by
  rw [Int32.toInt_sub, Int32.toInt_ofNat_of_lt h]
  have : (-1 : Int32).toInt = -1 := rfl
  rw [this]
  exact Int.bmod_eq_of_le (by omega) (by omega)

theorem toInt_relative {p n : Nat} (hp : p < 2 ^ 31) (hn : n < 2 ^ 31) :
    (Int32.ofNat p - Int32.ofNat n).toInt = (p : Int) - n := by
  rw [Int32.toInt_sub, Int32.toInt_ofNat_of_lt hp, Int32.toInt_ofNat_of_lt hn]
  exact Int.bmod_eq_of_le (by omega) (by omega)

theorem neg_of_toInt {i : Int32} {d : Nat} (h : i.toInt = -1 - (d : Int)) : i < 0 := by
  rw [Int32.lt_iff_toInt_lt, h]
  have : (0 : Int32).toInt = 0 := rfl
  omega

theorem isRelative_slot {i : Int32} {d : Nat} (h : i.toInt = -1 - (d : Int)) (k : StackKind)
    (nodes : List PathNode) : (⟨k, .index i :: nodes⟩ : DataPath).isRelative := by
  simpa [DataPath.isRelative] using neg_of_toInt h

/-- An element of a sequence can be replaced at an index that it has. -/
theorem replaced_ofNat {α : Type} {es : List α} {i : Nat} (hi : i < es.length)
    (hn : es.length < 2 ^ 31) (m : Machine.Error) (x : α) :
    Machine.replaced m es (Int32.ofNat i) x = .ok (es.set i x) := by
  have hto := Int32.toInt_ofNat_of_lt (Nat.lt_trans hi hn)
  have hnn : ¬Int32.ofNat i < 0 := by
    rw [Int32.lt_iff_toInt_lt, hto]
    have : (0 : Int32).toInt = 0 := rfl
    omega
  have hposition : Machine.position? es.length (Int32.ofNat i) = some i := by
    rw [Machine.position?]
    simp only [if_neg hnn, hto]
    rw [if_pos (by omega), Int.toNat_natCast]
  rw [Machine.replaced, hposition]

/-! ## The slot model on a frame -/

namespace Slots

variable {F A R : Frame} {slots slots' : Slots}

theorem stack_update (s : Slots) (k j : StackKind) (f : List Slot → List Slot) :
    (⟨s.byKind.update k f⟩ : Slots).stack j = if k = j then f (s.stack k) else s.stack j := by
  simp only [stack, PerKind.update, PerKind.get_set]

theorem uses_push (h : slots.stack = F.uses) (k : StackKind) (v : Nbt) :
    (slots.push k).stack = (held .free [(k, v)] ++ F).uses := by
  funext j
  rw [stack_push, Frame.uses_append]
  by_cases hj : k = j
  · subst hj
    rw [if_pos rfl, h]
    simp [Frame.uses, Frame.on_held_singleton]
  · rw [if_neg hj, h]
    simp [Frame.uses, Frame.on_held_singleton, hj]

theorem uses_pushAll (h : slots.stack = F.uses) (cs : Cells) :
    (slots.pushAll (cs.map (·.1))).stack = (held .free cs ++ F).uses := by
  induction cs generalizing slots F with
  | nil => exact h
  | cons c cs ih =>
    rw [List.map_cons, pushAll, List.foldl_cons, ← pushAll]
    have := ih (F := held .free [c] ++ F) (uses_push h c.1 c.2)
    rw [this, ← Frame.append_assoc, ← Frame.held_append, List.singleton_append]

/-- The slot at a relative index is the one below as many slots as the index says. -/
theorem uses_remove {k : StackKind} {i : Int32} {slot use : Slot} {v : Nbt}
    (h : slots.stack = (A ++ held use [(k, v)] ++ R).uses)
    (hi : i.toInt = -1 - ((A.on k).length : Int))
    (hr : slots.remove k i = .ok (slot, slots')) : slots'.stack = (A ++ R).uses := by
  have hd : slots.depth? k i = some (A.on k).length := by
    have hlen : (A.on k).length < slots.length k := by
      simp [length, h, Frame.uses, Frame.on_held_singleton]
    rw [depth?, hi, if_pos (by omega)]
    congr 1
    omega
  rw [remove, hd] at hr
  simp only at hr
  split at hr
  · cases hr
  · simp only [Except.ok.injEq, Prod.mk.injEq] at hr
    obtain ⟨-, rfl⟩ := hr
    funext j
    rw [stack_update, h]
    by_cases hj : k = j
    · subst hj
      rw [if_pos rfl]
      have hlen : (A.uses k).length = (A.on k).length := List.length_map _
      simp only [Frame.uses_append]
      rw [List.append_assoc, ← hlen, List.eraseIdx_append_of_length_le (Nat.le_refl _),
        Nat.sub_self]
      simp [Frame.uses, Frame.on_held_singleton]
    · rw [if_neg hj]
      simp [Frame.uses, Frame.on_held_singleton, hj]

/-- If nothing above a free slot is free, it is the topmost one. -/
theorem freeDepth?_eq {k : StackKind} {v : Nbt} (hA : A.bound = A)
    (h : slots.stack = (A ++ held .free [(k, v)] ++ R).uses) :
    slots.freeDepth? k = some (A.on k).length := by
  have hfree : ∀ x ∈ A.uses k, (x == Slot.free) = false := by
    intro x hx
    simp only [Frame.uses, List.mem_map] at hx
    obtain ⟨e, he, rfl⟩ := hx
    rw [← hA] at he
    simpa [Frame.bound] using (List.mem_filter.1 he).2
  rw [freeDepth?, h]
  simp only [Frame.uses_append]
  rw [List.append_assoc, List.findIdx?_append, List.findIdx?_eq_none_iff.2 hfree]
  simp [Frame.uses, Frame.on_held_singleton, List.findIdx?_cons]

theorem lastFree_eq {k : StackKind} {v : Nbt} (hA : A.bound = A)
    (h : slots.stack = (A ++ held .free [(k, v)] ++ R).uses) :
    slots.lastFree k = .ok (R.on k).length := by
  rw [lastFree, freeDepth?_eq hA h]
  simp only [length, h, Frame.uses, Frame.on_append, Frame.on_held_singleton]
  simp only [if_true, List.length_map, List.length_append, List.length_cons, List.length_nil]
  congr 1
  omega

theorem toInt_relative_eq {k : StackKind} {use : Slot} {v : Nbt}
    (h : slots.stack = (A ++ held use [(k, v)] ++ R).uses)
    (hsize : ((A ++ held use [(k, v)] ++ R).on k).length < 2 ^ 31) :
    (slots.relative k (R.on k).length).toInt = -1 - ((A.on k).length : Int) := by
  simp only [Frame.on_append, Frame.on_held_singleton, if_true, List.length_append,
    List.length_cons, List.length_nil] at hsize
  have hlen : slots.length k = (A.on k).length + 1 + (R.on k).length := by
    simp [length, h, Frame.uses, Frame.on_held_singleton]
    omega
  rw [relative, hlen, toInt_relative (by omega) (by omega)]
  omega

theorem uses_claim {k : StackKind} {l : Nat} {v : Nbt} (hA : A.bound = A)
    (h : slots.stack = (A ++ held .free [(k, v)] ++ R).uses) (hc : slots.claim k l = .ok slots') :
    slots'.stack = (A ++ held (.bound l) [(k, v)] ++ R).uses := by
  rw [claim, freeDepth?_eq hA h] at hc
  cases hc
  funext j
  rw [stack_update, h]
  by_cases hj : k = j
  · subst hj
    rw [if_pos rfl]
    have hlen : (A.uses k).length = (A.on k).length := List.length_map _
    simp only [Frame.uses_append]
    rw [List.append_assoc, ← hlen, List.set_append_right _ _ (Nat.le_refl _), Nat.sub_self]
    simp [Frame.uses, Frame.on_held_singleton]
  · rw [if_neg hj]
    simp [Frame.uses, Frame.on_held_singleton, hj]

end Slots

/-! ## The machine on a frame -/

section

variable {F A R : Frame} {s : State} {k : StackKind} {i : Int32} {use : Slot} {v : Nbt}

theorem values_push (h : s.stack = F.values) (hk : k ≠ .endTag) (v : Nbt) :
    (s.push k v).stack = (held .free [(k, v)] ++ F).values := by
  funext j
  rw [State.push, State.stack_update, Frame.values_append, h]
  by_cases hj : k = j
  · subst hj
    rw [if_pos rfl, Frame.values_of_ne _ hk, Frame.values_of_ne _ hk]
    simp [Frame.on_held_singleton]
  · rw [if_neg hj]
    simp [Frame.values, Frame.on_held_singleton, hj]

/-- The slot at a cut is at the depth of the cut and holds what it should. -/
theorem depth?_cut (h : s.stack = (A ++ held use [(k, v)] ++ R).values) (hk : k ≠ .endTag)
    (hi : i.toInt = -1 - ((A.on k).length : Int)) :
    s.depth? k i = some (A.on k).length ∧ (s.stack k)[(A.on k).length]? = some v := by
  rw [h, Frame.values_of_ne _ hk]
  refine ⟨(State.depth?_eq_some (neg_of_toInt hi)).2 ⟨by omega, ?_⟩, ?_⟩
  · rw [h, Frame.values_of_ne _ hk]
    simp [Frame.on_held_singleton]
  · simp [Frame.on_held_singleton]

theorem read_cut (h : s.stack = (A ++ held use [(k, v)] ++ R).values) (hk : k ≠ .endTag)
    (hi : i.toInt = -1 - ((A.on k).length : Int)) {nodes : List PathNode} {w : Nbt}
    (hw : Machine.valueAt? v nodes = some w) : s.read ⟨k, .index i :: nodes⟩ = .ok w := by
  obtain ⟨hd, hv⟩ := depth?_cut h hk hi
  simp only [State.read, hd, Option.bind_eq_bind, Option.bind_some, hv, hw]

theorem read_slot_cut (h : s.stack = (A ++ held use [(k, v)] ++ R).values) (hk : k ≠ .endTag)
    (hi : i.toInt = -1 - ((A.on k).length : Int)) : s.read (.slot k i) = .ok v :=
  read_cut h hk hi (by rw [Machine.valueAt?])

theorem values_set (h : s.stack = (A ++ held use [(k, v)] ++ R).values) (hk : k ≠ .endTag)
    (w : Nbt) :
    ({ s with byKind := s.byKind.update k (·.set (A.on k).length w) } : State).stack =
      (A ++ held use [(k, w)] ++ R).values := by
  funext j
  rw [State.stack_update, h]
  by_cases hj : k = j
  · subst hj
    rw [if_pos rfl, Frame.values_of_ne _ hk, Frame.values_of_ne _ hk]
    have hlen : ((A.on k).map (·.2)).length = (A.on k).length := List.length_map _
    simp only [Frame.on_append, List.map_append]
    rw [List.append_assoc, ← hlen, List.set_append_right _ _ (Nat.le_refl _), Nat.sub_self]
    simp [Frame.on_held_singleton]
  · rw [if_neg hj]
    simp [Frame.values, Frame.on_held_singleton, hj]

theorem change_cut (h : s.stack = (A ++ held use [(k, v)] ++ R).values) (hk : k ≠ .endTag)
    (hi : i.toInt = -1 - ((A.on k).length : Int)) {f : Nbt → Except Machine.Error Nbt} {w : Nbt}
    (hf : f v = .ok w) :
    ∃ s', s.change (.slot k i) f = .ok s' ∧ s'.stack = (A ++ held use [(k, w)] ++ R).values ∧
      s'.score = s.score := by
  obtain ⟨hd, hv⟩ := depth?_cut h hk hi
  refine ⟨_, ?_, values_set h hk w, funext fun r => by cases r <;> rfl⟩
  simp only [State.change, DataPath.slot, hd, hv, Machine.changeAt, hf, Bind.bind, Except.bind, pure,
    Except.pure]

theorem write_cut (h : s.stack = (A ++ held use [(k, v)] ++ R).values) (hk : k ≠ .endTag)
    (hi : i.toInt = -1 - ((A.on k).length : Int)) (w : Nbt) :
    ∃ s', s.write (.slot k i) w = .ok s' ∧ s'.stack = (A ++ held use [(k, w)] ++ R).values ∧
      s'.score = s.score :=
  change_cut (f := fun _ => .ok w) h hk hi rfl

/-- A part of the value at a cut can be set where its new value exists for any message. -/
theorem write_part_cut (h : s.stack = (A ++ held use [(k, v)] ++ R).values) (hk : k ≠ .endTag)
    (hi : i.toInt = -1 - ((A.on k).length : Int)) {n : PathNode} {x w : Nbt}
    (hw : ∀ e, Machine.withPart e n x v = .ok w) :
    ∃ s', s.write ⟨k, [.index i, n]⟩ x = .ok s' ∧
      s'.stack = (A ++ held use [(k, w)] ++ R).values ∧ s'.score = s.score :=
  change_cut h hk hi (hw _)

theorem remove_cut (h : s.stack = (A ++ held use [(k, v)] ++ R).values) (hk : k ≠ .endTag)
    (hi : i.toInt = -1 - ((A.on k).length : Int)) :
    ∃ s', s.remove (.slot k i) = .ok s' ∧ s'.stack = (A ++ R).values ∧ s'.score = s.score := by
  obtain ⟨hd, -⟩ := depth?_cut h hk hi
  refine ⟨{ s with byKind := s.byKind.update k (·.eraseIdx (A.on k).length) }, ?_, ?_,
    funext fun r => by cases r <;> rfl⟩
  · simp only [State.remove, DataPath.slot, hd]
  · funext j
    rw [State.stack_update, h]
    by_cases hj : k = j
    · subst hj
      rw [if_pos rfl, Frame.values_of_ne _ hk, Frame.values_of_ne _ hk]
      have hlen : ((A.on k).map (·.2)).length = (A.on k).length := List.length_map _
      simp only [Frame.on_append, List.map_append]
      rw [List.append_assoc, ← hlen, List.eraseIdx_append_of_length_le (Nat.le_refl _),
        Nat.sub_self]
      simp [Frame.on_held_singleton]
    · rw [if_neg hj]
      simp [Frame.values, Frame.on_held_singleton, hj]

end

/-! ## The slots of variables -/

/-- The slots of a frame are those of the variables in scope, and free ones. -/
def Frame.Represents (F : Frame) (ρ : List (Nat × Cells)) : Prop := F.bound = ofBindings ρ

/-- A frame can be cut at any of its slots. -/
theorem Frame.exists_cut {F : Frame} {k : StackKind} {d : Nat} {use : Slot} {v : Nbt}
    (h : (F.on k)[d]? = some (use, v)) :
    ∃ A R, F = A ++ held use [(k, v)] ++ R ∧ (A.on k).length = d := by
  obtain ⟨hd, he⟩ := List.getElem?_eq_some_iff.1 h
  refine ⟨⟨fun j => if k = j then (F.on j).take d else []⟩,
    ⟨fun j => if k = j then (F.on j).drop (d + 1) else F.on j⟩, ext_on fun j => ?_, ?_⟩
  · by_cases hj : k = j
    · subst hj
      simp only [on_append, on_held_singleton, if_true]
      rw [← he, List.append_assoc, List.singleton_append, List.getElem_cons_drop,
        List.take_append_drop]
    · simp [on_held_singleton, hj]
  · simp
    omega

/-- The slots of a level on a stack, from the top down: first those of the variable that the level
stands for. -/
theorem filter_ofBindings {ρ : List (Nat × Cells)} {l : Nat} {vs : Cells}
    (h : Keyed.find? l ρ = some vs) (k : StackKind) :
    ∃ rest, ((ofBindings ρ).on k).filter (fun e => e.1 = .bound l) =
      (held (.bound l) vs).on k ++ rest := by
  induction ρ with
  | nil => cases h
  | cons b ρ ih =>
    obtain ⟨m, ws⟩ := b
    rw [Frame.ofBindings_cons, Frame.on_append, List.filter_append]
    by_cases hm : m = l
    · subst hm
      rw [Keyed.find?, if_pos rfl] at h
      cases h
      refine ⟨_, congrArg (· ++ _) (List.filter_eq_self.2 fun e he => ?_)⟩
      simp only [held, List.mem_reverse, List.mem_map] at he
      obtain ⟨-, -, rfl⟩ := he
      simp
    · rw [Keyed.find?, if_neg hm] at h
      obtain ⟨rest, hrest⟩ := ih h
      refine ⟨rest, ?_⟩
      rw [hrest, List.filter_eq_nil_iff.2, List.nil_append]
      intro e he
      simp only [held, List.mem_reverse, List.mem_map] at he
      obtain ⟨-, -, rfl⟩ := he
      simp [hm]

theorem getElem?_depths (xs : List (Slot × Nbt)) (l n : Nat) :
    let depths : List Nat := ((xs.map (·.1)).zipIdx n).filterMap fun e =>
      if e.1 = Slot.bound l then some e.2 else none
    depths.length = (xs.filter fun e => e.1 = .bound l).length ∧
      ∀ (j : Nat) (e), (xs.filter fun e => e.1 = .bound l)[j]? = some e →
        ∃ d : Nat, depths[j]? = some (n + d) ∧ xs[d]? = some e := by
  induction xs generalizing n with
  | nil => simp
  | cons x xs ih =>
    obtain ⟨hlen, hget⟩ := ih (n + 1)
    by_cases hx : x.1 = .bound l
    · simp only [List.map_cons, List.zipIdx_cons, hx, List.filterMap_cons, if_true,
        List.filter_cons, decide_true, List.length_cons] at hlen ⊢
      refine ⟨by rw [hlen], fun j e he => ?_⟩
      cases j with
      | zero => exact ⟨0, rfl, he⟩
      | succ j =>
        obtain ⟨d, hd, hxs⟩ := hget j e he
        refine ⟨d + 1, ?_, hxs⟩
        rw [List.getElem?_cons_succ, hd]
        congr 1
        omega
    · simp only [List.map_cons, List.zipIdx_cons, hx, List.filterMap_cons, if_false,
        List.filter_cons, decide_false] at hlen ⊢
      refine ⟨hlen, fun j e he => ?_⟩
      obtain ⟨d, hd, hxs⟩ := hget j e he
      refine ⟨d + 1, ?_, hxs⟩
      rw [hd]
      congr 1
      omega

/-- The model finds every slot of a variable. -/
theorem find?_eq {F : Frame} {ρ : List (Nat × Cells)} {slots : Slots} {l : Nat}
    {before rest : Cells} {k : StackKind} {v : Nbt} (h : slots.stack = F.uses)
    (hρ : F.Represents ρ) (hl : Keyed.find? l ρ = some (before ++ (k, v) :: rest)) :
    ∃ A R, F = A ++ held (.bound l) [(k, v)] ++ R ∧
      slots.find? k l ((before.map (·.1)).count k)
          (((before ++ (k, v) :: rest).map (·.1)).count k) =
        some (-1 - Int32.ofNat (A.on k).length) := by
  obtain ⟨others, hfilter⟩ := filter_ofBindings hl k
  have hF : (F.on k).filter (fun e => e.1 = .bound l) =
      (held (.bound l) (before ++ (k, v) :: rest)).on k ++ others := by
    rw [← hfilter, ← hρ, Frame.bound, List.filter_filter]
    refine List.filter_congr fun e _ => ?_
    by_cases he : e.1 = .bound l <;> simp [he]
  obtain ⟨hlen, hget⟩ := getElem?_depths (F.on k) l 0
  have hdepths : slots.boundDepths k l = (((F.on k).map (·.1)).zipIdx).filterMap fun e =>
      if e.1 = Slot.bound l then some e.2 else none := by
    rw [Slots.boundDepths, h, Frame.uses]
  rw [← hdepths] at hlen hget
  -- counted from the top, the slot comes after those that are pushed after it
  have hcell : ((F.on k).filter fun e => e.1 = .bound l)[((rest.map (·.1)).count k)]? =
      some (.bound l, v) := by
    have hsplit : (before ++ (k, v) :: rest : Cells) = before ++ ([(k, v)] ++ rest) := rfl
    rw [hF, hsplit, Frame.held_append, Frame.held_append, ← Frame.length_held (.bound l) rest k]
    simp [Frame.on_held_singleton]
  obtain ⟨d, hd, hon⟩ := hget _ _ hcell
  obtain ⟨A, R, rfl, hA⟩ := Frame.exists_cut hon
  refine ⟨A, R, rfl, ?_⟩
  have hcount : ((before ++ (k, v) :: rest).map (·.1)).count k =
      (before.map (·.1)).count k + 1 + (rest.map (·.1)).count k := by
    simp only [List.map_append, List.map_cons, List.count_append, List.count_cons_self]
    omega
  rw [Slots.find?, if_pos]
  · have hidx : (before.map (·.1)).count k + 1 + (rest.map (·.1)).count k - 1 -
        (before.map (·.1)).count k = (rest.map (·.1)).count k := by omega
    rw [hcount, hidx, hd, hA, Option.map_some, Nat.zero_add]
  · rw [hlen, hF, List.length_append, Frame.length_held]
    omega

end Stagecraft.Emit
