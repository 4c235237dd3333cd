import Mathlib.Data.List.Basic
import Stagecraft.Proofs.Except
import Stagecraft.Proofs.MachineLogic

/-!
# What data instructions change

A data instruction works at one place: a slot of a stack, an element of a list or an array, a field
of a record, or a register. `Effect` says what it does there, with everything around the place
written out on both sides: a sequence is cut into what comes before the position that an index
names, the element, and what comes after, and a path leads through such cuts (`ChangesAt`). The
walkers of the machine are then described one by one: each succeeds exactly if there is a state that
the relation allows, and gives that state. So an instruction that fails has changed nothing, one
that succeeds has changed its place only, and what was put at a place is read there
(`data_instruction_is_local`).
-/

namespace Stagecraft.Machine

open Target (StackKind PerKind Nbt PathNode DataPath Source Register Instruction)

/-! ## Sequences and records -/

/-- An index names a position of a sequence of some length: counted from the start, or back from the
end. -/
def Names (length : Nat) (i : Int32) (p : Nat) : Prop :=
  p < length ∧ (i.toInt = p ∨ i.toInt = (p : Int) - length)

theorem position?_eq_some {length : Nat} {i : Int32} {p : Nat} :
    position? length i = some p ↔ Names length i p := by
  have hneg : i < 0 ↔ i.toInt < 0 := Int32.lt_iff_toInt_lt
  rw [position?, Names]
  by_cases hi : i < 0
  · have := hneg.1 hi
    simp only [if_pos hi, Option.ite_none_right_eq_some, Option.some.injEq]
    omega
  · have := mt hneg.2 hi
    simp only [if_neg hi, Option.ite_none_right_eq_some, Option.some.injEq]
    omega

/-- The element at the position that an index names goes over into another; what comes before and
after it is the same. -/
def ElementChanges {α : Type} (R : α → α → Prop) (i : Int32) (es es' : List α) : Prop :=
  ∃ before e e' after, es = before ++ e :: after ∧ es' = before ++ e' :: after ∧
    Names es.length i before.length ∧ R e e'

/-- The element at the position that an index names is taken out, and those after it move up. -/
def ElementRemoved {α : Type} (i : Int32) (es es' : List α) : Prop :=
  ∃ before e after, es = before ++ e :: after ∧ es' = before ++ after ∧
    Names es.length i before.length

/-- The value of a field goes over into another; the other fields are the same, in their order. -/
def FieldChanges (R : Nbt → Nbt → Prop) (key : String) (fields fields' : List (String × Nbt)) :
    Prop :=
  ∃ before v v' after, fields = before ++ (key, v) :: after ∧
    fields' = before ++ (key, v') :: after ∧ key ∉ Keyed.keys before ∧ R v v'

/-- A field is taken out; the others stay in their order. -/
def FieldRemoved (key : String) (fields fields' : List (String × Nbt)) : Prop :=
  ∃ before v after, fields = before ++ (key, v) :: after ∧ fields' = before ++ after ∧
    key ∉ Keyed.keys before

section

variable {α : Type} {es es' : List α} {i : Int32} {p : Nat} {e : α}

theorem getElem?_eq_some_iff_cut :
    es[p]? = some e ↔ ∃ before after, es = before ++ e :: after ∧ before.length = p := by
  constructor
  · intro h
    obtain ⟨hp, rfl⟩ := List.getElem?_eq_some_iff.1 h
    refine ⟨es.take p, es.drop (p + 1), ?_, List.length_take_of_le (Nat.le_of_lt hp)⟩
    rw [List.getElem_cons_drop, List.take_append_drop]
  · rintro ⟨before, after, rfl, rfl⟩
    rw [List.getElem?_append_right (Nat.le_refl _), Nat.sub_self, List.getElem?_cons_zero]

theorem set_cut (before after : List α) (e e' : α) :
    (before ++ e :: after).set before.length e' = before ++ e' :: after := by
  rw [List.set_append_right _ _ (Nat.le_refl _), Nat.sub_self, List.set_cons_zero]

theorem eraseIdx_cut (before after : List α) (e : α) :
    (before ++ e :: after).eraseIdx before.length = before ++ after := by
  rw [List.eraseIdx_append_of_length_le (Nat.le_refl _), Nat.sub_self, List.eraseIdx_cons_zero]

theorem reverse_cut (before after : List α) (e : α) :
    (before ++ e :: after).reverse = after.reverse ++ e :: before.reverse := by
  rw [List.reverse_append, List.reverse_cons, List.append_assoc, List.singleton_append]

theorem elementChanges_iff {R : α → α → Prop} : ElementChanges R i es es' ↔
    ∃ p e e', position? es.length i = some p ∧ es[p]? = some e ∧ R e e' ∧ es' = es.set p e' := by
  constructor
  · rintro ⟨before, e, e', after, rfl, rfl, hp, hR⟩
    exact ⟨_, e, e', position?_eq_some.2 hp, getElem?_eq_some_iff_cut.2 ⟨before, after, rfl, rfl⟩,
      hR, (set_cut before after e e').symm⟩
  · rintro ⟨p, e, e', hp, he, hR, rfl⟩
    obtain ⟨before, after, rfl, rfl⟩ := getElem?_eq_some_iff_cut.1 he
    exact ⟨before, e, e', after, rfl, set_cut before after e e', position?_eq_some.1 hp, hR⟩

theorem elementRemoved_iff : ElementRemoved i es es' ↔
    ∃ p, position? es.length i = some p ∧ es' = es.eraseIdx p := by
  constructor
  · rintro ⟨before, e, after, rfl, rfl, hp⟩
    exact ⟨_, position?_eq_some.2 hp, (eraseIdx_cut before after e).symm⟩
  · rintro ⟨p, hp, rfl⟩
    have hnames := position?_eq_some.1 hp
    obtain ⟨e, he⟩ : ∃ e, es[p]? = some e := ⟨_, List.getElem?_eq_getElem hnames.1⟩
    obtain ⟨before, after, rfl, rfl⟩ := getElem?_eq_some_iff_cut.1 he
    exact ⟨before, e, after, rfl, eraseIdx_cut before after e, hnames⟩

theorem replaced_eq_ok {mismatch : Error} {x : α} :
    replaced mismatch es i x = .ok es' ↔ ElementChanges (fun _ e => e = x) i es es' := by
  rw [elementChanges_iff, replaced]
  cases hp : position? es.length i with
  | none => simp
  | some p =>
    have hlt := (position?_eq_some.1 hp).1
    simp [List.getElem?_eq_getElem hlt, eq_comm]

end

section

variable {key : String} {fields fields' before after : List (String × Nbt)} {v v' : Nbt}

theorem find?_eq_some_iff_cut : Keyed.find? key fields = some v ↔
    ∃ before after, fields = before ++ (key, v) :: after ∧ key ∉ Keyed.keys before := by
  induction fields with
  | nil => simp [Keyed.find?]
  | cons e fields ih =>
    obtain ⟨k, w⟩ := e
    rw [Keyed.find?]
    by_cases hk : k = key
    · subst hk
      rw [if_pos rfl, Option.some.injEq]
      constructor
      · rintro rfl
        exact ⟨[], fields, rfl, List.not_mem_nil⟩
      · rintro ⟨_ | ⟨b, before⟩, after, heq, hkey⟩
        · cases heq
          rfl
        · cases heq
          exact absurd List.mem_cons_self hkey
    · rw [if_neg hk, ih]
      constructor
      · rintro ⟨before, after, rfl, hkey⟩
        exact ⟨(k, w) :: before, after, rfl, List.not_mem_cons_of_ne_of_not_mem (Ne.symm hk) hkey⟩
      · rintro ⟨_ | ⟨b, before⟩, after, heq, hkey⟩
        · cases heq
          exact absurd rfl hk
        · cases heq
          exact ⟨before, after, rfl, fun h => hkey (List.mem_cons_of_mem _ h)⟩

theorem insert_cut (h : key ∉ Keyed.keys before) :
    Keyed.insert key v' (before ++ (key, v) :: after) = before ++ (key, v') :: after := by
  induction before with
  | nil => rw [List.nil_append, Keyed.insert, if_pos rfl, List.nil_append]
  | cons e before ih =>
    rw [Keyed.keys, List.map_cons, List.mem_cons, not_or] at h
    rw [List.cons_append, Keyed.insert, if_neg (Ne.symm h.1), ih h.2, List.cons_append]

theorem erase_cut (h : key ∉ Keyed.keys before) :
    Keyed.erase key (before ++ (key, v) :: after) = before ++ after := by
  induction before with
  | nil => rw [List.nil_append, Keyed.erase, if_pos rfl, List.nil_append]
  | cons e before ih =>
    rw [Keyed.keys, List.map_cons, List.mem_cons, not_or] at h
    rw [List.cons_append, Keyed.erase, if_neg (Ne.symm h.1), ih h.2, List.cons_append]

theorem fieldChanges_iff {R : Nbt → Nbt → Prop} : FieldChanges R key fields fields' ↔
    ∃ v v', Keyed.find? key fields = some v ∧ R v v' ∧ fields' = Keyed.insert key v' fields := by
  constructor
  · rintro ⟨before, v, v', after, rfl, rfl, hkey, hR⟩
    exact ⟨v, v', find?_eq_some_iff_cut.2 ⟨before, after, rfl, hkey⟩, hR, (insert_cut hkey).symm⟩
  · rintro ⟨v, v', hv, hR, rfl⟩
    obtain ⟨before, after, rfl, hkey⟩ := find?_eq_some_iff_cut.1 hv
    exact ⟨before, v, v', after, rfl, insert_cut hkey, hkey, hR⟩

theorem fieldRemoved_iff : FieldRemoved key fields fields' ↔
    (Keyed.find? key fields).isSome ∧ fields' = Keyed.erase key fields := by
  rw [Option.isSome_iff_exists]
  constructor
  · rintro ⟨before, v, after, rfl, rfl, hkey⟩
    exact ⟨⟨v, find?_eq_some_iff_cut.2 ⟨before, after, rfl, hkey⟩⟩, (erase_cut hkey).symm⟩
  · rintro ⟨⟨v, hv⟩, rfl⟩
    obtain ⟨before, after, rfl, hkey⟩ := find?_eq_some_iff_cut.1 hv
    exact ⟨before, v, after, rfl, erase_cut hkey, hkey⟩

theorem notMem_keys_of_find? (h : Keyed.find? key fields = none) : key ∉ Keyed.keys fields := by
  induction fields with
  | nil => exact List.not_mem_nil
  | cons e fields ih =>
    rw [Keyed.find?] at h
    split at h
    · cases h
    · next hk => exact List.not_mem_cons_of_ne_of_not_mem (Ne.symm hk) (ih h)

/-- Insertion changes the field that is there, or adds a new one at the end. -/
theorem insert_eq_iff : fields' = Keyed.insert key v' fields ↔
    FieldChanges (fun _ v => v = v') key fields fields' ∨
      key ∉ Keyed.keys fields ∧ fields' = fields ++ [(key, v')] := by
  cases hv : Keyed.find? key fields with
  | some v =>
    have hmem : key ∈ Keyed.keys fields := List.mem_map_of_mem (Keyed.mem_of_find? hv)
    rw [fieldChanges_iff]
    simp [hv, hmem]
  | none =>
    have hmem : key ∉ Keyed.keys fields := notMem_keys_of_find? hv
    rw [fieldChanges_iff, Keyed.insert_of_notMem hmem]
    simp [hv, hmem]

end

/-! ## Parts of a value -/

/-- What path steps lead to goes over into another value; all that they lead past is the same. -/
def ChangesAt (R : Nbt → Nbt → Prop) : List PathNode → Nbt → Nbt → Prop
  | [], v, v' => R v v'
  | .key key :: rest, .compound fields, v' =>
    ∃ fields', FieldChanges (ChangesAt R rest) key fields fields' ∧ v' = .compound fields'
  | .index i :: rest, .list es, v' =>
    ∃ es', ElementChanges (ChangesAt R rest) i es es' ∧ v' = .list es'
  | _ :: _, _, _ => False

/-- A value has one of its parts set. A record may get a new field, at the end; an array takes
numbers of its kind only. -/
def PartSet : PathNode → Nbt → Nbt → Nbt → Prop
  | .key key, value, .compound fields, v' => ∃ fields',
    (FieldChanges (fun _ v => v = value) key fields fields' ∨
      key ∉ Keyed.keys fields ∧ fields' = fields ++ [(key, value)]) ∧ v' = .compound fields'
  | .index i, value, .list es, v' =>
    ∃ es', ElementChanges (fun _ e => e = value) i es es' ∧ v' = .list es'
  | .index i, .byte n, .byteArray es, v' =>
    ∃ es', ElementChanges (fun _ e => e = n) i es es' ∧ v' = .byteArray es'
  | .index i, .int n, .intArray es, v' =>
    ∃ es', ElementChanges (fun _ e => e = n) i es es' ∧ v' = .intArray es'
  | .index i, .long n, .longArray es, v' =>
    ∃ es', ElementChanges (fun _ e => e = n) i es es' ∧ v' = .longArray es'
  | _, _, _, _ => False

/-- A value has one of its parts taken out. -/
def PartRemoved : PathNode → Nbt → Nbt → Prop
  | .key key, .compound fields, v' =>
    ∃ fields', FieldRemoved key fields fields' ∧ v' = .compound fields'
  | .index i, .list es, v' => ∃ es', ElementRemoved i es es' ∧ v' = .list es'
  | _, _, _ => False

/-- A list gets one more element, at its end. -/
def Extended (value : Nbt) : Nbt → Nbt → Prop
  | .list es, v' => v' = .list (es ++ [value])
  | _, _ => False

section

variable {mismatch missing : Error} {node : PathNode} {value v v' : Nbt}

theorem changeAt_eq_ok {change : Nbt → Except Error Nbt} {nodes : List PathNode} :
    changeAt missing change v nodes = .ok v' ↔
      ChangesAt (fun a b => change a = .ok b) nodes v v' := by
  induction nodes generalizing v v' with
  | nil => rw [changeAt, ChangesAt]
  | cons node rest ih =>
    cases node with
    | key key =>
      cases v with
      | compound fields =>
        rw [changeAt, ChangesAt]
        simp only [fieldChanges_iff, ← ih]
        cases Keyed.find? key fields with
        | none => simp
        | some w =>
          rw [Except.bind_pure_ok]
          constructor
          · rintro ⟨w', hw, rfl⟩
            exact ⟨_, ⟨w, w', rfl, hw, rfl⟩, rfl⟩
          · rintro ⟨_, ⟨_, w', hfind, hw, rfl⟩, rfl⟩
            cases hfind
            exact ⟨w', hw, rfl⟩
      | _ => simp [changeAt, ChangesAt]
    | index i =>
      cases v with
      | list es =>
        rw [changeAt, ChangesAt]
        simp only [elementChanges_iff, ← ih]
        cases position? es.length i with
        | none => simp
        | some p =>
          cases he : es[p]? with
          | none => simp [he]
          | some w =>
            simp only [he]
            rw [Except.bind_pure_ok]
            constructor
            · rintro ⟨w', hw, rfl⟩
              exact ⟨_, ⟨p, w, w', rfl, he, hw, rfl⟩, rfl⟩
            · rintro ⟨_, ⟨_, _, w', hp, hget, hw, rfl⟩, rfl⟩
              cases hp
              cases he.symm.trans hget
              exact ⟨w', hw, rfl⟩
      | _ => simp [changeAt, ChangesAt]

theorem withPart_eq_ok : withPart mismatch node value v = .ok v' ↔ PartSet node value v v' := by
  cases node with
  | key key =>
    cases v with
    | compound fields =>
      simp only [withPart, PartSet, Except.ok.injEq, ← insert_eq_iff, exists_eq_left]
      exact eq_comm
    | _ => simp [withPart, PartSet]
  | index i =>
    cases v with
    | list es =>
      rw [withPart, Except.bind_pure_ok, PartSet]
      simp only [replaced_eq_ok]
    | byteArray es =>
      cases value with
      | byte n =>
        rw [withPart, Except.bind_pure_ok, PartSet]
        simp only [replaced_eq_ok]
      | _ => simp [withPart, PartSet]
    | intArray es =>
      cases value with
      | int n =>
        rw [withPart, Except.bind_pure_ok, PartSet]
        simp only [replaced_eq_ok]
      | _ => simp [withPart, PartSet]
    | longArray es =>
      cases value with
      | long n =>
        rw [withPart, Except.bind_pure_ok, PartSet]
        simp only [replaced_eq_ok]
      | _ => simp [withPart, PartSet]
    | _ => simp [withPart, PartSet]

theorem withoutPart_eq_ok : withoutPart missing node v = .ok v' ↔ PartRemoved node v v' := by
  cases node with
  | key key =>
    cases v with
    | compound fields =>
      simp only [withoutPart, PartRemoved, fieldRemoved_iff]
      by_cases hv : (Keyed.find? key fields).isSome
      · rw [if_pos hv, Except.ok.injEq]
        simp only [hv, true_and, exists_eq_left]
        exact eq_comm
      · rw [if_neg hv]
        simp [hv]
    | _ => simp [withoutPart, PartRemoved]
  | index i =>
    cases v with
    | list es =>
      simp only [withoutPart, PartRemoved, elementRemoved_iff]
      cases position? es.length i with
      | none => simp
      | some p => simp [eq_comm]
    | _ => simp [withoutPart, PartRemoved]

theorem appended_eq_ok : appended mismatch value v = .ok v' ↔ Extended value v v' := by
  cases v with
  | list es =>
    rw [appended, Extended, Except.ok.injEq]
    exact eq_comm
  | _ => simp [appended, Extended]

end

/-! ## Places in a state -/

namespace State

/-- The values of a stack, from the bottom up. -/
def slots (s : State) (k : StackKind) : List Nbt := (s.stack k).reverse

/-- One stack goes over into another; the other stacks, the scores and the commands are the same. -/
structure StackChanges (R : List Nbt → List Nbt → Prop) (k : StackKind) (s s' : State) : Prop where
  slots : R (s.slots k) (s'.slots k)
  others : ∀ j, j ≠ k → s'.slots j = s.slots j
  scores : ∀ r, s'.score r = s.score r
  commands : s'.commands = s.commands

/-- One register has a score; the other one, the stacks and the commands are the same. -/
structure ScoreSet (r : Register) (n : Int32) (s s' : State) : Prop where
  score : s'.score r = n
  others : ∀ q, q ≠ r → s'.score q = s.score q
  slots : ∀ k, s'.slots k = s.slots k
  commands : s'.commands = s.commands

/-- What a path leads to goes over into another value. -/
def ChangesAt (R : Nbt → Nbt → Prop) (path : DataPath) (s s' : State) : Prop :=
  match path.nodes with
  | .index i :: rest => s.StackChanges (ElementChanges (Machine.ChangesAt R rest) i) path.stack s'
  | _ => False

/-- The last step of a path changes something: a stack at one of its slots, or what the steps before
it lead to at one of its parts. -/
def ChangesLast (slot : Int32 → List Nbt → List Nbt → Prop) (part : PathNode → Nbt → Nbt → Prop)
    (path : DataPath) (s s' : State) : Prop :=
  (∃ i, path.nodes = [.index i] ∧ s.StackChanges (slot i) path.stack s') ∨
    ∃ parent node, path.nodes = parent ++ [node] ∧ s.ChangesAt (part node) ⟨path.stack, parent⟩ s'

/-- A value is put into a slot, or a part is set to it. -/
def Puts (value : Nbt) : DataPath → State → State → Prop :=
  ChangesLast (ElementChanges fun _ v => v = value) (PartSet · value)

/-- A slot or a part is taken out. -/
def Removes : DataPath → State → State → Prop := ChangesLast ElementRemoved PartRemoved

section

variable {s s' : State} {k : StackKind} {i : Int32} {path : DataPath} {value v : Nbt}
  {before after : List Nbt}

theorem stack_eq_reverse (s : State) (k : StackKind) : s.stack k = (s.slots k).reverse := by
  rw [slots, List.reverse_reverse]

theorem slots_update (s : State) (k j : StackKind) (es : List Nbt) :
    ({ s with byKind := s.byKind.update k fun _ => es.reverse } : State).slots j =
      if k = j then es else s.slots j := by
  rw [slots, stack_update]
  split
  · exact List.reverse_reverse es
  · rw [slots]

theorem stackChanges_iff {R : List Nbt → List Nbt → Prop} : s.StackChanges R k s' ↔
    ∃ es, R (s.slots k) es ∧ s' = { s with byKind := s.byKind.update k fun _ => es.reverse } := by
  constructor
  · intro h
    refine ⟨s'.slots k, h.slots, ext_stack (fun j => ?_) (h.scores .result) (h.scores .scratch)
      h.commands⟩
    rw [stack_eq_reverse, stack_eq_reverse, slots_update]
    by_cases hj : k = j
    · rw [if_pos hj, hj]
    · rw [if_neg hj, h.others j (Ne.symm hj)]
  · rintro ⟨es, hR, rfl⟩
    refine ⟨?_, fun j hj => ?_, fun r => by cases r <;> rfl, rfl⟩
    · rwa [slots_update, if_pos rfl]
    · rw [slots_update, if_neg (Ne.symm hj)]

/-- The slot that an index names lies as deep as there are slots after it. -/
theorem depth?_eq_some_iff_cut {d : Nat} :
    s.depth? k i = some d ∧ (s.stack k)[d]? = some v ↔ ∃ before after,
      s.slots k = before ++ v :: after ∧ Names (s.slots k).length i before.length ∧
        after.length = d := by
  have hlen : (s.slots k).length = (s.stack k).length := List.length_reverse
  constructor
  · rintro ⟨hd, hv⟩
    obtain ⟨p, hp, rfl⟩ := Option.map_eq_some_iff.1 hd
    have hnames := position?_eq_some.1 hp
    -- A state keeps its stacks from the top down, so the cut is turned around.
    obtain ⟨above, below, hcut, habove⟩ := getElem?_eq_some_iff_cut.1 hv
    have hbelow : below.length = p := by
      have := hnames.1
      have := congrArg List.length hcut
      rw [List.length_append, List.length_cons] at this
      omega
    refine ⟨below.reverse, above.reverse, ?_, ?_, ?_⟩
    · rw [slots, hcut, reverse_cut]
    · rwa [hlen, List.length_reverse, hbelow]
    · rw [List.length_reverse, habove]
  · rintro ⟨before, after, hcut, hnames, rfl⟩
    have hcount : (s.stack k).length = before.length + (after.length + 1) := by
      rw [← hlen, hcut, List.length_append, List.length_cons]
    constructor
    · rw [depth?, position?_eq_some.2 (hlen ▸ hnames), Option.map_some]
      congr 1
      omega
    · refine getElem?_eq_some_iff_cut.2 ⟨after.reverse, before.reverse, ?_, List.length_reverse⟩
      rw [stack_eq_reverse, hcut, reverse_cut]

/-- An index that names a position leads to a slot. -/
theorem exists_cut_of_depth? {d : Nat} (h : s.depth? k i = some d) : ∃ v before after,
    s.slots k = before ++ v :: after ∧ Names (s.slots k).length i before.length ∧
      after.length = d := by
  obtain ⟨p, hp, hd⟩ := Option.map_eq_some_iff.1 h
  have hlt := (position?_eq_some.1 hp).1
  obtain ⟨v, hv⟩ : ∃ v, (s.stack k)[d]? = some v := ⟨_, List.getElem?_eq_getElem (by omega)⟩
  exact ⟨v, depth?_eq_some_iff_cut.1 ⟨h, hv⟩⟩

theorem set_stack_cut (h : s.slots k = before ++ v :: after) (v' : Nbt) :
    (s.stack k).set after.length v' = (before ++ v' :: after).reverse := by
  have hlen : after.length = after.reverse.length := List.length_reverse.symm
  rw [stack_eq_reverse, h, reverse_cut, reverse_cut, hlen, set_cut]

theorem eraseIdx_stack_cut (h : s.slots k = before ++ v :: after) :
    (s.stack k).eraseIdx after.length = (before ++ after).reverse := by
  have hlen : after.length = after.reverse.length := List.length_reverse.symm
  rw [stack_eq_reverse, h, reverse_cut, hlen, eraseIdx_cut, List.reverse_append]

/-! ## The walkers -/

theorem change_eq_ok {f : Nbt → Except Error Nbt} :
    s.change path f = .ok s' ↔ s.ChangesAt (fun a b => f a = .ok b) path s' := by
  obtain ⟨k, nodes⟩ := path
  rcases nodes with _ | ⟨⟨i⟩ | ⟨key⟩, rest⟩
  · simp [change, ChangesAt]
  · simp only [change, ChangesAt]
    rw [stackChanges_iff]
    constructor
    · intro h
      split at h
      · cases h
      · next d hd =>
        split at h
        · cases h
        · next v hv =>
          obtain ⟨v', hv', rfl⟩ := Except.bind_pure_ok.1 h
          obtain ⟨before, after, hcut, hnames, rfl⟩ := depth?_eq_some_iff_cut.1 ⟨hd, hv⟩
          refine ⟨_, ⟨before, v, v', after, hcut, rfl, hnames, changeAt_eq_ok.1 hv'⟩, ?_⟩
          rw [← set_stack_cut hcut]
          rfl
    · rintro ⟨_, ⟨before, v, v', after, hcut, rfl, hnames, hR⟩, rfl⟩
      obtain ⟨hd, hv⟩ := depth?_eq_some_iff_cut.2 ⟨before, after, hcut, hnames, rfl⟩
      simp only [hd, hv]
      refine Except.bind_pure_ok.2 ⟨v', changeAt_eq_ok.2 hR, ?_⟩
      rw [← set_stack_cut hcut]
      rfl
  · simp [change, ChangesAt]

section

variable {slot : Int32 → List Nbt → List Nbt → Prop} {part : PathNode → Nbt → Nbt → Prop}
  {node : PathNode} {parent : List PathNode}

theorem not_changesLast_nil : ¬ChangesLast slot part ⟨k, []⟩ s s' := by
  rintro (⟨i, h, -⟩ | ⟨parent, node, h, -⟩)
  · cases h
  · exact List.append_ne_nil_of_right_ne_nil parent (List.cons_ne_nil node []) h.symm

/-- Nothing but a slot is changed by a single step. -/
theorem changesLast_singleton : ChangesLast slot part ⟨k, [node]⟩ s s' ↔
    ∃ i, node = .index i ∧ s.StackChanges (slot i) k s' := by
  constructor
  · rintro (⟨i, h, hs⟩ | ⟨parent, n, h, hs⟩)
    · cases h
      exact ⟨i, rfl, hs⟩
    · cases parent with
      | nil => exact hs.elim
      | cons p ps => simp at h
  · rintro ⟨i, rfl, hs⟩
    exact .inl ⟨i, rfl, hs⟩

theorem changesLast_part (hparent : parent ≠ []) :
    ChangesLast slot part ⟨k, parent ++ [node]⟩ s s' ↔ s.ChangesAt (part node) ⟨k, parent⟩ s' := by
  constructor
  · rintro (⟨i, h, -⟩ | ⟨parent', node', h, hs⟩)
    · have hinit : parent ++ [node] = [] ++ [.index i] := h
      exact absurd (List.append_inj' hinit rfl).1 hparent
    · obtain ⟨rfl, hnode⟩ := List.append_inj' h rfl
      cases hnode
      exact hs
  · exact fun hs => .inr ⟨parent, node, rfl, hs⟩

theorem splitPath_append (hparent : parent ≠ []) :
    splitPath ⟨k, parent ++ [node]⟩ = .ok (⟨k, parent⟩, node) := by
  cases parent with
  | nil => exact absurd rfl hparent
  | cons p ps =>
    have hinit : (p :: ps ++ [node]).dropLast = p :: ps := List.dropLast_concat
    have hlast : (p :: ps ++ [node]).getLast? = some node := List.getLast?_concat
    simp only [splitPath, hinit, hlast]

end

theorem write_eq_ok : s.write path value = .ok s' ↔ s.Puts value path s' := by
  obtain ⟨k, nodes⟩ := path
  rcases List.eq_nil_or_concat' nodes with rfl | ⟨parent, node, rfl⟩
  · exact iff_of_false (by simp [write, splitPath, bind, Except.bind]) not_changesLast_nil
  · rcases parent with _ | ⟨p, ps⟩
    · rw [List.nil_append, Puts, changesLast_singleton]
      simp only [write, change_eq_ok]
      cases node <;> simp [ChangesAt, Machine.ChangesAt, eq_comm]
    · have hparent : p :: ps ≠ [] := List.cons_ne_nil p ps
      -- What lies under the last step is looked up as for any other change.
      have hwrite : s.write ⟨k, p :: ps ++ [node]⟩ value =
          s.change ⟨k, p :: ps⟩ (withPart (.mismatch ⟨k, p :: ps ++ [node]⟩) node value) := by
        rw [write]
        split
        · next h => simp at h
        · rw [splitPath_append hparent]
          rfl
      rw [hwrite, change_eq_ok, Puts, changesLast_part hparent]
      simp only [withPart_eq_ok]

theorem remove_eq_ok : s.remove path = .ok s' ↔ s.Removes path s' := by
  obtain ⟨k, nodes⟩ := path
  rcases List.eq_nil_or_concat' nodes with rfl | ⟨parent, node, rfl⟩
  · exact iff_of_false (by simp [remove, splitPath, bind, Except.bind]) not_changesLast_nil
  · rcases parent with _ | ⟨p, ps⟩
    · rw [List.nil_append, Removes, changesLast_singleton]
      cases node with
      | key key => simp [remove, splitPath, bind, Except.bind]
      | index i =>
        simp only [remove, PathNode.index.injEq, exists_eq_left', stackChanges_iff]
        constructor
        · intro h
          split at h
          · cases h
          · next d hd =>
            obtain ⟨v, before, after, hcut, hnames, rfl⟩ := exists_cut_of_depth? hd
            rw [Except.ok.injEq] at h
            refine ⟨_, ⟨before, v, after, hcut, rfl, hnames⟩, ?_⟩
            rw [← eraseIdx_stack_cut hcut, ← h]
            rfl
        · rintro ⟨_, ⟨before, v, after, hcut, rfl, hnames⟩, rfl⟩
          obtain ⟨hd, -⟩ := depth?_eq_some_iff_cut.2 ⟨before, after, hcut, hnames, rfl⟩
          simp only [hd]
          rw [← eraseIdx_stack_cut hcut]
          rfl
    · have hparent : p :: ps ≠ [] := List.cons_ne_nil p ps
      have hremove : s.remove ⟨k, p :: ps ++ [node]⟩ =
          s.change ⟨k, p :: ps⟩ (withoutPart (.noData ⟨k, p :: ps ++ [node]⟩) node) := by
        rw [remove]
        split
        · next h => simp at h
        · rw [splitPath_append hparent]
          rfl
      rw [hremove, change_eq_ok, Removes, changesLast_part hparent]
      simp only [withoutPart_eq_ok]

theorem push_eq_iff : s' = s.push k value ↔
    s.StackChanges (fun es es' => es' = es ++ [value]) k s' := by
  have hstack : s.slots k ++ [value] = (value :: s.stack k).reverse := by
    rw [List.reverse_cons, slots]
  rw [stackChanges_iff]
  simp only [exists_eq_left, hstack, List.reverse_reverse]
  rfl

theorem setScore_eq_iff {r : Register} {n : Int32} :
    s' = s.setScore r n ↔ s.ScoreSet r n s' := by
  constructor
  · rintro rfl
    cases r with
    | result => exact ⟨rfl, fun q hq => by cases q <;> trivial, fun k => rfl, rfl⟩
    | scratch => exact ⟨rfl, fun q hq => by cases q <;> trivial, fun k => rfl, rfl⟩
  · intro h
    refine ext_stack (fun j => ?_) ?_ ?_ ?_
    · have hslots : (s.setScore r n).slots j = s.slots j := by cases r <;> rfl
      rw [stack_eq_reverse, stack_eq_reverse, h.slots, hslots]
    · cases r with
      | result => exact h.score
      | scratch => exact h.others .result (by decide)
    · cases r with
      | result => exact h.others .scratch (by decide)
      | scratch => exact h.score
    · cases r <;> exact h.commands

end

/-! ## Instructions -/

/-- What an instruction does to a state, if it is a data instruction. -/
def Effect : Instruction → State → State → Prop
  | .append target src, s, s' => ∃ v, s.source src = .ok v ∧
    if target.nodes = [] then s.StackChanges (fun es es' => es' = es ++ [v]) target.stack s'
    else s.ChangesAt (Extended v) target s'
  | .set target src, s, s' => ∃ v, s.source src = .ok v ∧ s.Puts v target s'
  | .remove target, s, s' => s.Removes target s'
  | .setScore r n, s, s' => s.ScoreSet r n s'
  | .storeScore r path, s, s' =>
    ∃ v n, s.read path = .ok v ∧ scoreOf? v = some n ∧ s.ScoreSet r n s'
  | .storeData path r, s, s' => s.Puts (.byte (s.score r).toInt8) path s'
  | _, _, _ => False

end State

/-- Instructions that change data or scores, and do nothing else. -/
def isData : Instruction → Bool
  | .append .. | .set .. | .remove _ | .setScore .. | .storeScore .. | .storeData .. => true
  | .ifScore .. | .call _ | .comment _ | .raw _ => false

namespace State

section

variable {s s' : State} {i : Instruction}

theorem apply_eq_ok (hi : isData i) : s.apply i = .ok s' ↔ Effect i s s' := by
  cases i with
  | append target src =>
    rw [apply, Except.bind_ok, Effect]
    refine exists_congr fun v => and_congr_right fun _ => ?_
    split
    · next hn =>
      rw [if_pos hn, ← push_eq_iff, eq_comm (a := s')]
      exact iff_of_eq (Except.ok.injEq _ _)
    · next hn =>
      rw [if_neg hn, change_eq_ok]
      simp only [appended_eq_ok]
  | set target src =>
    rw [apply, Except.bind_ok, Effect]
    simp only [write_eq_ok]
  | remove target => exact remove_eq_ok
  | setScore r n =>
    rw [apply, Except.ok.injEq, Effect, ← setScore_eq_iff]
    exact eq_comm
  | storeScore r path =>
    rw [apply, Except.bind_ok, Effect]
    refine exists_congr fun v => ?_
    cases hv : scoreOf? v with
    | none => simp
    | some n =>
      simp only [Option.some.injEq, exists_and_left, exists_eq_left', ← setScore_eq_iff]
      rw [eq_comm (a := s')]
      exact and_congr_right fun _ => iff_of_eq (Except.ok.injEq _ _)
  | storeData path r => exact write_eq_ok
  | ifScore | call | comment | raw => cases hi

end

end State

/-! ## Reading back -/

section

variable {R : Nbt → Nbt → Prop} {v v' value : Nbt}

/-- A change of an element leaves its position where it was. -/
theorem ElementChanges.positions {α : Type} {R : α → α → Prop} {i : Int32} {es es' : List α}
    (h : ElementChanges R i es es') : ∃ p e e', position? es.length i = some p ∧ es[p]? = some e ∧
      position? es'.length i = some p ∧ es'[p]? = some e' ∧ R e e' := by
  obtain ⟨p, e, e', hp, he, hR, rfl⟩ := elementChanges_iff.1 h
  have hlt := (position?_eq_some.1 hp).1
  exact ⟨p, e, e', hp, he, by rwa [List.length_set], List.getElem?_set_self hlt, hR⟩

theorem FieldChanges.fields {key : String} {fields fields' : List (String × Nbt)}
    (h : FieldChanges R key fields fields') : ∃ v v', Keyed.find? key fields = some v ∧
      Keyed.find? key fields' = some v' ∧ R v v' := by
  obtain ⟨before, v, v', after, rfl, rfl, hkey, hR⟩ := h
  exact ⟨v, v', find?_eq_some_iff_cut.2 ⟨before, after, rfl, hkey⟩,
    find?_eq_some_iff_cut.2 ⟨before, after, rfl, hkey⟩, hR⟩

/-- The steps of a change lead to what changes before it, and to what it has become after it. -/
theorem ChangesAt.values {nodes : List PathNode} (h : ChangesAt R nodes v v') :
    ∃ a a', valueAt? v nodes = some a ∧ valueAt? v' nodes = some a' ∧ R a a' := by
  induction nodes generalizing v v' with
  | nil => exact ⟨v, v', by rw [valueAt?], by rw [valueAt?], h⟩
  | cons node rest ih =>
    cases node with
    | key key =>
      cases v with
      | compound fields =>
        obtain ⟨fields', hfields, rfl⟩ := h
        obtain ⟨w, w', hw, hw', hrest⟩ := hfields.fields
        obtain ⟨a, a', ha, ha', hR⟩ := ih hrest
        exact ⟨a, a', by simpa [valueAt?, hw] using ha, by simpa [valueAt?, hw'] using ha', hR⟩
      | _ => exact h.elim
    | index i =>
      cases v with
      | list es =>
        obtain ⟨es', hes, rfl⟩ := h
        obtain ⟨p, w, w', hp, hw, hp', hw', hrest⟩ := hes.positions
        obtain ⟨a, a', ha, ha', hR⟩ := ih hrest
        exact ⟨a, a', by simpa [valueAt?, hp, hw] using ha, by simpa [valueAt?, hp', hw'] using ha',
          hR⟩
      | _ => exact h.elim

theorem valueAt?_append {nodes : List PathNode} {node : PathNode} (h : valueAt? v nodes = some v') :
    valueAt? v (nodes ++ [node]) = valueAt? v' [node] := by
  induction nodes generalizing v with
  | nil =>
    rw [valueAt?, Option.some.injEq] at h
    rw [h, List.nil_append]
  | cons n rest ih =>
    cases n with
    | key key =>
      cases v with
      | compound fields =>
        cases hw : Keyed.find? key fields with
        | none => simp [valueAt?, hw] at h
        | some w =>
          simp only [List.cons_append, valueAt?, hw, Option.bind_eq_bind, Option.bind_some] at h ⊢
          exact ih h
      | _ => simp [valueAt?] at h
    | index i =>
      cases v with
      | list es =>
        cases hp : position? es.length i with
        | none => simp [valueAt?, hp] at h
        | some p =>
          cases hw : es[p]? with
          | none => simp [valueAt?, hp, hw] at h
          | some w =>
            simp only [List.cons_append, valueAt?, hp, hw, Option.bind_eq_bind,
              Option.bind_some] at h ⊢
            exact ih h
      | _ => simp [valueAt?] at h

/-- Whether a value is a sequence of numbers, which no path leads into. -/
def isArray : Nbt → Bool
  | .byteArray _ | .intArray _ | .longArray _ => true
  | _ => false

/-- The part that was set is there, if it can be read. -/
theorem PartSet.read {node : PathNode} (h : PartSet node value v v') (hv : isArray v = false) :
    valueAt? v' [node] = some value := by
  cases node with
  | key key =>
    cases v with
    | compound fields =>
      obtain ⟨fields', hchange | ⟨hkey, rfl⟩, rfl⟩ := h
      · obtain ⟨_, _, _, hw, rfl⟩ := hchange.fields
        simp [valueAt?, hw]
      · have hw : Keyed.find? key (fields ++ [(key, value)]) = some value :=
          find?_eq_some_iff_cut.2 ⟨fields, [], rfl, hkey⟩
        simp [valueAt?, hw]
    | _ => exact h.elim
  | index i =>
    cases v with
    | list es =>
      obtain ⟨es', hes, rfl⟩ := h
      obtain ⟨p, _, _, _, _, hp, hw, rfl⟩ := hes.positions
      simp [valueAt?, hp, hw]
    | byteArray | intArray | longArray => cases hv
    | _ => exact h.elim

end

namespace State

section

variable {R : Nbt → Nbt → Prop} {s s' : State} {k : StackKind} {path : DataPath} {v value : Nbt}

theorem read_eq_ok {i : Int32} {rest : List PathNode} :
    s.read ⟨k, .index i :: rest⟩ = .ok v ↔ ∃ before w after, s.slots k = before ++ w :: after ∧
      Names (s.slots k).length i before.length ∧ valueAt? w rest = some v := by
  have hread : s.read ⟨k, .index i :: rest⟩ = .ok v ↔
      ∃ d w, (s.depth? k i = some d ∧ (s.stack k)[d]? = some w) ∧ valueAt? w rest = some v := by
    simp only [read]
    cases s.depth? k i with
    | none => simp
    | some d =>
      cases hw : (s.stack k)[d]? with
      | none => simp [hw]
      | some w => cases hv : valueAt? w rest <;> simp [hw, hv]
  rw [hread]
  constructor
  · rintro ⟨d, w, hd, hv⟩
    obtain ⟨before, after, hcut, hnames, -⟩ := depth?_eq_some_iff_cut.1 hd
    exact ⟨before, w, after, hcut, hnames, hv⟩
  · rintro ⟨before, w, after, hcut, hnames, hv⟩
    exact ⟨_, w, depth?_eq_some_iff_cut.2 ⟨before, after, hcut, hnames, rfl⟩, hv⟩

/-- The path of a change reads what changes before it, and what it has become after it. -/
theorem ChangesAt.reads (h : s.ChangesAt R path s') :
    ∃ a a', s.read path = .ok a ∧ s'.read path = .ok a' ∧ R a a' := by
  obtain ⟨k, nodes⟩ := path
  rcases nodes with _ | ⟨⟨i⟩ | ⟨key⟩, rest⟩
  · exact h.elim
  · obtain ⟨before, w, w', after, hcut, hcut', hnames, hrest⟩ := h.slots
    obtain ⟨a, a', ha, ha', hR⟩ := hrest.values
    have hlen : (s'.slots k).length = (s.slots k).length := by
      simp [hcut, hcut']
    exact ⟨a, a', read_eq_ok.2 ⟨before, w, after, hcut, hnames, ha⟩,
      read_eq_ok.2 ⟨before, w', after, hcut', hlen ▸ hnames, ha'⟩, hR⟩
  · exact h.elim

theorem read_part {nodes : List PathNode} {node : PathNode} (h : s.read ⟨k, nodes⟩ = .ok v)
    (hv : valueAt? v [node] = some value) : s.read ⟨k, nodes ++ [node]⟩ = .ok value := by
  rcases nodes with _ | ⟨⟨i⟩ | ⟨key⟩, rest⟩
  · simp [read] at h
  · obtain ⟨before, w, after, hcut, hnames, hw⟩ := read_eq_ok.1 h
    exact read_eq_ok.2 ⟨before, w, after, hcut, hnames, (valueAt?_append hw).trans hv⟩
  · simp [read] at h

/-- The last step of a path leads into a sequence of numbers. -/
def InArray (s : State) (path : DataPath) : Prop :=
  ∃ v, s.read ⟨path.stack, path.nodes.dropLast⟩ = .ok v ∧ isArray v = true

theorem Puts.read (h : s.Puts value path s') (hpath : ¬s.InArray path) :
    s'.read path = .ok value := by
  obtain ⟨k, nodes⟩ := path
  rcases h with ⟨i, rfl, hslot⟩ | ⟨parent, node, rfl, hpart⟩
  · have hchange : s.ChangesAt (fun _ v => v = value) ⟨k, [.index i]⟩ s' := hslot
    obtain ⟨_, _, -, hread, rfl⟩ := hchange.reads
    exact hread
  · obtain ⟨a, a', ha, ha', hset⟩ := hpart.reads
    have harray : isArray a = false := by
      refine Bool.eq_false_iff.2 fun hnot => hpath ⟨a, ?_, hnot⟩
      simpa using ha
    exact read_part ha' (hset.read harray)

end

end State

/-! ## Runs of data instructions -/

open State (Effect)

/-- One effect after the other. -/
def Effects : List Instruction → State → State → Prop
  | [], s, s' => s = s'
  | i :: is, s, s' => ∃ t, Effect i s t ∧ Effects is t s'

theorem run_cons_data (p : Program) {fuel : Nat} {i : Instruction} {is : List Instruction}
    {s : State} (hi : isData i) : run p (fuel + 1) (i :: is) s =
      match s.apply i with
      | .ok s => run p fuel is s
      | .error e => ⟨s, fuel, some e⟩ := by
  cases i with
  | ifScore | call | comment | raw => cases hi
  | _ => rfl

/-- Data instructions run to their end, or up to one that fails or has no fuel left, which leaves
the state that those before it made. -/
theorem run_data (p : Program) {is : List Instruction} (his : ∀ i ∈ is, isData i) (fuel : Nat)
    (s : State) :
    (∃ s', Effects is s s' ∧ is.length ≤ fuel ∧ run p fuel is s = ⟨s', fuel - is.length, none⟩) ∨
      ∃ done i rest e, is = done ++ i :: rest ∧ (run p fuel is s).error = some e ∧
        Effects done s (run p fuel is s).state ∧
        (fuel = done.length ∨ ∀ t, ¬Effect i (run p fuel is s).state t) := by
  induction is generalizing fuel s with
  | nil => exact .inl ⟨s, rfl, Nat.zero_le _, by rw [run]; rfl⟩
  | cons i is ih =>
    obtain ⟨hi, his⟩ := List.forall_mem_cons.1 his
    cases fuel with
    | zero => exact .inr ⟨[], i, is, .outOfFuel, rfl, by rw [run], by rw [run]; rfl, .inl rfl⟩
    | succ fuel =>
      rw [run_cons_data p hi]
      cases ha : s.apply i with
      | error e =>
        refine .inr ⟨[], i, is, e, rfl, rfl, rfl, .inr fun t ht => ?_⟩
        rw [(State.apply_eq_ok hi).2 ht] at ha
        cases ha
      | ok t =>
        have ht := (State.apply_eq_ok hi).1 ha
        rcases ih his fuel t with ⟨s', hs', hlen, hrun⟩ | ⟨done, j, rest, e, rfl, he, hdone, hj⟩
        · refine .inl ⟨s', ⟨t, ht, hs'⟩, Nat.succ_le_succ hlen, ?_⟩
          rw [List.length_cons, Nat.add_sub_add_right]
          exact hrun
        · exact .inr ⟨i :: done, j, rest, e, rfl, he, ⟨t, ht, hdone⟩,
            hj.imp_left (congrArg (· + 1))⟩

/-- In a state, an instruction writes a value to a slot, an element of a list or a field. (No path
reads an element of an array.) -/
def State.Writes (s : State) : Instruction → DataPath → Nbt → Prop
  | .set target src, path, v => path = target ∧ s.source src = .ok v ∧ ¬s.InArray path
  | .storeData target r, path, v =>
    path = target ∧ v = .byte (s.score r).toInt8 ∧ ¬s.InArray path
  | _, _, _ => False

theorem State.Effect.read_writes {s s' : State} {i : Instruction} {path : DataPath} {v : Nbt}
    (h : Effect i s s') (hv : s.Writes i path v) : s'.read path = .ok v := by
  cases i with
  | set target src =>
    obtain ⟨w, hw, hputs⟩ := h
    obtain ⟨rfl, hsrc, harray⟩ := hv
    rw [hsrc] at hw
    cases hw
    exact hputs.read harray
  | storeData target r =>
    obtain ⟨rfl, rfl, harray⟩ := hv
    exact State.Puts.read h harray
  | _ => exact hv.elim

/-- A data instruction is atomic and local: if it fails, the state is the one before it; it fails
exactly if there is no fuel or no state that it may go over to; if it does not fail, its effect is
all that has happened; and what it has written is read where it was written. -/
theorem data_instruction_is_local (p : Program) (fuel : Nat) (s : State) {i : Instruction}
    (hi : isData i) :
    (∀ e, (run p fuel [i] s).error = some e → (run p fuel [i] s).state = s) ∧
    ((run p fuel [i] s).error = none ↔ 0 < fuel ∧ ∃ s', Effect i s s') ∧
    ((run p fuel [i] s).error = none → Effect i s (run p fuel [i] s).state ∧
      ∀ path v, s.Writes i path v → (run p fuel [i] s).state.read path = .ok v) := by
  have hdata : ∀ j ∈ [i], isData j := List.forall_mem_singleton.2 hi
  rcases run_data p hdata fuel s with ⟨s', ⟨t, heffect, rfl⟩, hlen, hrun⟩ |
    ⟨done, j, rest, e, hsplit, he, hdone, hfail⟩
  · rw [hrun]
    exact ⟨fun e he => (nomatch he), ⟨fun _ => ⟨hlen, t, heffect⟩, fun _ => rfl⟩,
      fun _ => ⟨heffect, fun path v hv => heffect.read_writes hv⟩⟩
  · -- There is but one instruction to stop at.
    obtain ⟨rfl, rfl, rfl⟩ : done = [] ∧ j = i ∧ rest = [] := by
      cases done with
      | nil => simpa [eq_comm] using hsplit
      | cons d done => simp at hsplit
    have hs : s = (run p fuel [j] s).state := hdone
    refine ⟨fun _ _ => hs.symm, ⟨fun hnone => ?_, ?_⟩, fun hnone => ?_⟩
    · rw [he] at hnone
      cases hnone
    · rintro ⟨hfuel, s', heffect⟩
      rcases hfail with rfl | hfail
      · exact absurd hfuel (Nat.lt_irrefl 0)
      · exact absurd (hs ▸ heffect) (hfail s')
    · rw [he] at hnone
      cases hnone

/-- Two records; the second one has a list that ends in a record. -/
def records : State :=
  (State.empty.push .compound (.compound [("x", .byte 1)])).push .compound
    (.compound [("a", .list [.int 1, .int 2, .compound [("x", .byte 3), ("y", .long 4)]]),
      ("x", .byte 5)])

/-- The innermost field gets a copy of the record around it. -/
theorem data_instruction_is_local_records :
    let target := ((DataPath.slot .compound (-1)).field "a" |>.element (-1)).field "x"
    let source := DataPath.slot .compound 1
    let i := Instruction.set target (.copy source)
    isData i ∧ (run .empty 1 [i] records).error = none ∧
      Effect i records (run .empty 1 [i] records).state ∧
      ∃ v, records.read source = .ok v ∧ (run .empty 1 [i] records).state.read target = .ok v := by
  intro target source i
  have hlocal := data_instruction_is_local .empty 1 records (rfl : isData i)
  have hnone : (run .empty 1 [i] records).error = none := rfl
  have htarget : ¬records.InArray target := by
    rintro ⟨w, hw, harray⟩
    cases hw
    cases harray
  exact ⟨rfl, hnone, (hlocal.2.2 hnone).1, _, rfl,
    (hlocal.2.2 hnone).2 target _ ⟨rfl, rfl, htarget⟩⟩

end Stagecraft.Machine
