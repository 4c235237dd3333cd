import Stagecraft.Machine.Run

/-!
# A logic for straight-line code

Code that addresses every stack from its top does not see what lies under the slots it works on.
So a piece of code is described on the slots above some prefix, and the description holds over
every prefix: `State.above` puts a prefix under a state, and `apply_above` says that an instruction
does the same over it.

`leads` is the weakest precondition of a list of instructions. It follows the instructions one by
one and takes what is known of calls as a parameter. `ends_of_leads` turns it into a statement on
runs, once the calls are known to end as they are said to.
-/

namespace Stagecraft.Target

theorem DataPath.field_slot (k : StackKind) (i : Int32) (name : String) :
    (slot k i).field name = ⟨k, [.index i, .key name]⟩ := rfl

theorem DataPath.element_slot (k : StackKind) (i j : Int32) :
    (slot k i).element j = ⟨k, [.index i, .index j]⟩ := rfl

/-- Whether a path counts from the top of its stack. -/
def DataPath.isRelative (p : DataPath) : Bool :=
  match p.nodes with
  | .index i :: _ => decide (i < 0)
  | _ => false

/-- Whether a source does not count from the bottom of a stack. -/
def Source.isRelative : Source → Bool
  | .value _ => true
  | .copy path => path.isRelative

/-- Whether an instruction other than a call or a condition counts from the top of the stacks
only. -/
def Instruction.isRelative : Instruction → Bool
  | .append target source =>
    (target.nodes.isEmpty || target.isRelative) && source.isRelative
  | .set target source => target.isRelative && source.isRelative
  | .remove path | .storeScore _ path | .storeData path _ => path.isRelative
  | .setScore .. | .comment _ | .raw _ => true
  | .ifScore .. | .call _ => false

theorem Instruction.isRelative_set {target path : DataPath} (ht : target.isRelative)
    (hp : path.isRelative) : (Instruction.set target (.copy path)).isRelative :=
  Bool.and_eq_true_iff.2 ⟨ht, hp⟩

theorem Instruction.isRelative_append {target path : DataPath} (ht : target.isRelative)
    (hp : path.isRelative) : (Instruction.append target (.copy path)).isRelative :=
  Bool.and_eq_true_iff.2 ⟨Bool.or_eq_true_iff.2 (.inr ht), hp⟩

theorem ScoreRange.contains_exactly (n m : Int32) :
    (ScoreRange.exactly n).contains m = true ↔ n = m := by
  simp only [ScoreRange.exactly, ScoreRange.contains, Option.all_some, Bool.and_eq_true,
    decide_eq_true_eq]
  exact ⟨fun h => Int32.le_antisymm h.1 h.2, fun h => h ▸ ⟨Int32.le_refl _, Int32.le_refl _⟩⟩

theorem StackKind.exists_index : ∀ j : Fin 13, ∃ k : StackKind, k.index = j := by
  intro j
  have h : ∀ j : Fin 13, (all.get (j.cast rfl)).index = j := by decide
  exact ⟨_, h j⟩

theorem PerKind.ext_get {α : Type u} {p q : PerKind α} (h : ∀ k, p.get k = q.get k) : p = q := by
  obtain ⟨p⟩ := p
  obtain ⟨q⟩ := q
  congr 1
  ext i hi
  obtain ⟨k, hk⟩ := StackKind.exists_index ⟨i, hi⟩
  simpa [get, hk] using h k

end Stagecraft.Target

namespace Stagecraft.Machine

open Target (StackKind PerKind Nbt PathNode DataPath Source Instruction Location)

/-! ## Prefixes under a state -/

namespace State

/-- The state with more slots under every stack. -/
def above (s : State) (base : PerKind (List Nbt)) : State :=
  { s with byKind := ⟨s.byKind.values.zipWith (· ++ ·) base.values⟩ }

@[simp] theorem stack_above (s : State) (base : PerKind (List Nbt)) (k : StackKind) :
    (s.above base).stack k = s.stack k ++ base.get k := by
  simp [above, stack, PerKind.get]

theorem ext_stack {s t : State} (h : ∀ k, s.stack k = t.stack k) (hr : s.result = t.result)
    (hs : s.scratch = t.scratch) (hc : s.commands = t.commands) : s = t := by
  obtain ⟨s, r, x, c⟩ := s
  obtain ⟨t, r', x', c'⟩ := t
  have : s = t := PerKind.ext_get h
  cases this
  cases hr
  cases hs
  cases hc
  rfl

theorem stack_update (s : State) (k j : StackKind) (f : List Nbt → List Nbt) :
    ({ s with byKind := s.byKind.update k f } : State).stack j =
      if k = j then f (s.stack k) else s.stack j := by
  simp only [stack, PerKind.update, PerKind.get_set]

/-- A change of a stack that leaves alone what is under it can be made over a prefix. -/
theorem above_update (s : State) (base : PerKind (List Nbt)) (k : StackKind)
    {f : List Nbt → List Nbt} (hf : f (s.stack k ++ base.get k) = f (s.stack k) ++ base.get k) :
    { s.above base with byKind := (s.above base).byKind.update k f } =
      ({ s with byKind := s.byKind.update k f } : State).above base := by
  refine ext_stack (fun j => ?_) rfl rfl rfl
  rw [stack_above, stack_update, stack_update]
  by_cases h : k = j
  · subst h
    rw [if_pos rfl, if_pos rfl, stack_above, hf]
  · rw [if_neg h, if_neg h, stack_above]

/-- A negative index counts from the top. -/
theorem depth?_eq_some {s : State} {k : StackKind} {i : Int32} {d : Nat} (hi : i < 0) :
    s.depth? k i = some d ↔ (d : Int) = -1 - i.toInt ∧ d < (s.stack k).length := by
  have hneg : i.toInt < 0 := by simpa using Int32.lt_iff_toInt_lt.1 hi
  simp only [depth?, position?, if_pos hi, Option.map_eq_some_iff]
  constructor
  · rintro ⟨p, hp, rfl⟩
    split at hp
    · cases hp
      omega
    · cases hp
  · rintro ⟨hd, hlt⟩
    refine ⟨((s.stack k).length + i.toInt).toNat, ?_, by omega⟩
    rw [if_pos (by omega)]

theorem depth?_over {s : State} {k : StackKind} {i : Int32} {d : Nat} (hi : i < 0)
    (h : s.depth? k i = some d) (base : PerKind (List Nbt)) :
    (s.above base).depth? k i = some d ∧ d < (s.stack k).length := by
  have hd := (depth?_eq_some hi).1 h
  refine ⟨(depth?_eq_some hi).2 ⟨hd.1, ?_⟩, hd.2⟩
  rw [stack_above, List.length_append]
  omega

theorem read_above {s : State} {path : DataPath} {v : Nbt} (hp : path.isRelative)
    (h : s.read path = .ok v) (base : PerKind (List Nbt)) : (s.above base).read path = .ok v := by
  obtain ⟨k, nodes⟩ := path
  rcases nodes with _ | ⟨⟨i⟩ | ⟨n⟩, rest⟩
  · cases hp
  · have hi : i < 0 := by simpa [DataPath.isRelative] using hp
    simp only [read] at h ⊢
    cases hd : s.depth? k i with
    | none => simp [hd] at h
    | some d =>
      obtain ⟨hd', hlt⟩ := depth?_over hi hd base
      rw [hd] at h
      rw [hd', stack_above]
      simpa [List.getElem?_append_left hlt] using h
  · cases hp

theorem change_above {s s' : State} {path : DataPath} {f : Nbt → Except Error Nbt}
    (hp : path.isRelative) (h : s.change path f = .ok s') (base : PerKind (List Nbt)) :
    (s.above base).change path f = .ok (s'.above base) := by
  obtain ⟨k, nodes⟩ := path
  rcases nodes with _ | ⟨⟨i⟩ | ⟨n⟩, rest⟩
  · cases hp
  · have hi : i < 0 := by simpa [DataPath.isRelative] using hp
    simp only [change] at h ⊢
    cases hd : s.depth? k i with
    | none => simp [hd] at h
    | some d =>
      obtain ⟨hd', hlt⟩ := depth?_over hi hd base
      rw [hd] at h
      rw [hd', stack_above]
      simp only [List.getElem?_append_left hlt] at h ⊢
      rw [List.getElem?_eq_getElem hlt] at h ⊢
      simp only at h ⊢
      cases hc : changeAt (.noData ⟨k, .index i :: rest⟩) f (s.stack k)[d] rest with
      | error e => simp [hc, bind, Except.bind] at h
      | ok v =>
        simp only [hc, bind, Except.bind, pure, Except.pure, Except.ok.injEq] at h ⊢
        subst h
        exact above_update s base k (List.set_append_left d v hlt)
  · cases hp

theorem isRelative_of_splitPath {path parent : DataPath} {node : PathNode}
    (hp : path.isRelative) (h : splitPath path = .ok (parent, node)) : parent.isRelative := by
  obtain ⟨k, nodes⟩ := path
  rcases nodes with _ | ⟨⟨i⟩ | ⟨n⟩, rest⟩
  · cases hp
  · cases rest with
    | nil => simp [splitPath] at h
    | cons n rest =>
      simp only [splitPath, List.dropLast_cons_cons, List.getLast?_cons_cons] at h
      split at h
      · next e _ =>
        simp only [Except.ok.injEq, Prod.mk.injEq] at h
        obtain ⟨rfl, -⟩ := h
        simp only [List.cons.injEq] at e
        obtain ⟨rfl, rfl⟩ := e
        exact hp
      · cases h
  · cases hp

theorem write_above {s s' : State} {path : DataPath} {v : Nbt} (hp : path.isRelative)
    (h : s.write path v = .ok s') (base : PerKind (List Nbt)) :
    (s.above base).write path v = .ok (s'.above base) := by
  simp only [write] at h ⊢
  split at h
  · exact change_above hp h base
  · cases hs : splitPath path with
    | error e => simp [hs, bind, Except.bind] at h
    | ok r =>
      simp only [hs, bind, Except.bind] at h ⊢
      exact change_above (isRelative_of_splitPath hp hs) h base

theorem remove_above {s s' : State} {path : DataPath} (hp : path.isRelative)
    (h : s.remove path = .ok s') (base : PerKind (List Nbt)) :
    (s.above base).remove path = .ok (s'.above base) := by
  simp only [remove] at h ⊢
  split at h
  · next i hn =>
    have hi : i < 0 := by simpa [DataPath.isRelative, hn] using hp
    cases hd : s.depth? path.stack i with
    | none => simp [hd] at h
    | some d =>
      obtain ⟨hd', hlt⟩ := depth?_over hi hd base
      rw [hd] at h
      rw [hd']
      simp only [Except.ok.injEq] at h ⊢
      subst h
      exact above_update s base _ (List.eraseIdx_append_of_lt_length hlt _)
  · cases hs : splitPath path with
    | error e => simp [hs, bind, Except.bind] at h
    | ok r =>
      simp only [hs, bind, Except.bind] at h ⊢
      exact change_above (isRelative_of_splitPath hp hs) h base

theorem source_above {s : State} {source : Source} {v : Nbt} (hp : source.isRelative)
    (h : s.source source = .ok v) (base : PerKind (List Nbt)) :
    (s.above base).source source = .ok v := by
  cases source with
  | value => exact h
  | copy path => exact read_above hp h base

theorem apply_set_copy {s : State} {target path : DataPath} {v : Nbt} (h : s.read path = .ok v) :
    s.apply (.set target (.copy path)) = s.write target v := by
  rw [apply, source, h]
  rfl

theorem apply_storeScore {s : State} {r : Target.Register} {path : DataPath} {v : Nbt} {n : Int32}
    (h : s.read path = .ok v) (hn : scoreOf? v = some n) :
    s.apply (.storeScore r path) = .ok (s.setScore r n) := by
  rw [apply, h]
  simp only [bind, Except.bind, hn]
  rfl

theorem push_above (s : State) (k : StackKind) (v : Nbt) (base : PerKind (List Nbt)) :
    (s.above base).push k v = (s.push k v).above base :=
  above_update s base k rfl

theorem setScore_above (s : State) (r : Target.Register) (n : Int32) (base : PerKind (List Nbt)) :
    (s.above base).setScore r n = (s.setScore r n).above base := by
  cases r <;> rfl

/-- An instruction that counts from the top does over a prefix what it does without it. -/
theorem apply_above {s s' : State} {i : Instruction} (hi : i.isRelative) (h : s.apply i = .ok s')
    (base : PerKind (List Nbt)) : (s.above base).apply i = .ok (s'.above base) := by
  cases i with
  | append target source =>
    simp only [Instruction.isRelative, Bool.and_eq_true, Bool.or_eq_true] at hi
    cases hv : s.source source with
    | error e => simp [apply, hv, bind, Except.bind] at h
    | ok v =>
      simp only [apply, hv, source_above hi.2 hv base, bind, Except.bind] at h ⊢
      split at h
      · cases h
        exact congrArg Except.ok (push_above s target.stack v base)
      · next hne => exact change_above (hi.1.resolve_left (by simpa using hne)) h base
  | set target source =>
    simp only [Instruction.isRelative, Bool.and_eq_true] at hi
    cases hv : s.source source with
    | error e => simp [apply, hv, bind, Except.bind] at h
    | ok v =>
      simp only [apply, hv, source_above hi.2 hv base, bind, Except.bind] at h ⊢
      exact write_above hi.1 h base
  | remove path => exact remove_above hi h base
  | setScore r n =>
    cases h
    exact congrArg Except.ok (setScore_above s r n base)
  | storeScore r path =>
    cases hv : s.read path with
    | error e => simp [apply, hv, bind, Except.bind] at h
    | ok v =>
      simp only [apply, hv, read_above hi hv base, bind, Except.bind] at h ⊢
      split at h
      · cases h
        exact congrArg Except.ok (setScore_above s r _ base)
      · cases h
  | storeData path r => exact write_above hi (by cases r <;> exact h) base
  | raw line =>
    cases h
    rfl
  | comment line =>
    cases h
    rfl
  | ifScore | call => cases hi

end State

/-! ## Weakest preconditions -/

/-- What is known of calls: from which states a call of a location ends in a condition. -/
structure Calls where
  lead : Location → State → (State → Prop) → Prop
  mono : ∀ {l s P Q}, (∀ s, P s → Q s) → lead l s P → lead l s Q

section

variable (c : Calls)

/-- From the state, the instruction ends in the condition. -/
def leadsOne : Instruction → State → (State → Prop) → Prop
  | .ifScore negated r range body, s, Q =>
    if range.contains (s.score r) != negated then leadsOne body s Q else Q s
  | .call l, s, Q => c.lead l s Q
  | i, s, Q => i.isRelative ∧ ∃ s', s.apply i = .ok s' ∧ Q s'

/-- From the state, the instructions end in the condition. -/
def leads : List Instruction → State → (State → Prop) → Prop
  | [], s, Q => Q s
  | i :: is, s, Q => leadsOne c i s fun s => leads is s Q

end

section

variable {c : Calls}

theorem leadsOne_of_apply {i : Instruction} {s t : State} {Q : State → Prop}
    (hi : i.isRelative) (h : s.apply i = .ok t) (hQ : Q t) : leadsOne c i s Q := by
  cases i with
  | ifScore | call => cases hi
  | _ => exact ⟨hi, t, h, hQ⟩

theorem leadsOne_ifScore {negated : Bool} {r : Target.Register} {range : Target.ScoreRange}
    {body : Instruction} {s : State} {Q : State → Prop} :
    leadsOne c (.ifScore negated r range body) s Q ↔
      if range.contains (s.score r) != negated then leadsOne c body s Q else Q s := by
  rw [leadsOne]

theorem leadsOne_mono {i : Instruction} {s : State} {P Q : State → Prop} (hPQ : ∀ s, P s → Q s)
    (h : leadsOne c i s P) : leadsOne c i s Q := by
  induction i with
  | ifScore negated r range body ih =>
    rw [leadsOne] at h ⊢
    split at h
    · next hr =>
      rw [if_pos hr]
      exact ih h
    · next hr =>
      rw [if_neg hr]
      exact hPQ s h
  | call l => exact c.mono hPQ h
  | _ =>
    obtain ⟨hi, s', ha, hs⟩ := h
    exact ⟨hi, s', ha, hPQ s' hs⟩

theorem leads_mono {is : List Instruction} {s : State} {P Q : State → Prop}
    (hPQ : ∀ s, P s → Q s) (h : leads c is s P) : leads c is s Q := by
  induction is generalizing s with
  | nil => exact hPQ s h
  | cons i is ih => exact leadsOne_mono (fun _ => ih) h

@[simp] theorem leads_append {is js : List Instruction} {s : State} {Q : State → Prop} :
    leads c (is ++ js) s Q ↔ leads c is s fun s => leads c js s Q := by
  induction is generalizing s with
  | nil => rfl
  | cons i is ih => exact ⟨leadsOne_mono fun _ => ih.1, leadsOne_mono fun _ => ih.2⟩

end

/-! ## Runs -/

section

variable {ι : Type} (p : ι → Program) (base : ι → PerKind (List Nbt))

/-- With enough fuel, every program of a family runs the instructions without a failure, and what
they do is the same over every prefix. -/
def Ends (is : List Instruction) (s : State) (Q : State → Prop) : Prop :=
  ∃ n s', Q s' ∧ ∀ m i, run (p i) (n + m) is (s.above (base i)) = ⟨s'.above (base i), m, none⟩

/-- Calls end as they are known to. -/
def Calls.Realized (c : Calls) : Prop :=
  ∀ l s Q, c.lead l s Q → Ends p base [.call l] s Q

end

section

variable {ι : Type} {p : ι → Program} {base : ι → PerKind (List Nbt)} {c : Calls}

theorem ends_append {is js : List Instruction} {s : State} {Q : State → Prop}
    (h : Ends p base is s fun s => Ends p base js s Q) : Ends p base (is ++ js) s Q := by
  obtain ⟨n, s', ⟨n', s'', hQ, hjs⟩, his⟩ := h
  refine ⟨n + n', s'', hQ, fun m i => ?_⟩
  rw [run_append, Nat.add_assoc, his]
  exact hjs m i

theorem ends_of_apply {i : Instruction} {s s' : State} {Q : State → Prop} (hi : i.isRelative)
    (h : s.apply i = .ok s') (hQ : Q s') : Ends p base [i] s Q := by
  refine ⟨1, s', hQ, fun m j => ?_⟩
  have hrun := State.apply_above hi h (base j)
  rw [Nat.add_comm]
  cases i with
  | ifScore | call => cases hi
  | _ => simp only [run, hrun]

theorem ends_of_leadsOne (hc : c.Realized p base) {i : Instruction} {s : State}
    {Q : State → Prop} (h : leadsOne c i s Q) : Ends p base [i] s Q := by
  induction i with
  | call l => exact hc l s Q h
  | ifScore negated r range body ih =>
    have hscore : ∀ j, (s.above (base j)).score r = s.score r := fun j => by cases r <;> rfl
    rw [leadsOne] at h
    split at h
    · next hr =>
      obtain ⟨n, s', hQ, hrun⟩ := ih h
      refine ⟨n + 1, s', hQ, fun m j => ?_⟩
      rw [Nat.add_right_comm, run, hscore, if_pos hr]
      exact hrun m j
    · next hr =>
      refine ⟨1, s, h, fun m j => ?_⟩
      rw [Nat.add_comm, run, hscore, if_neg hr, run]
  | _ =>
    obtain ⟨hi, s', ha, hs⟩ := h
    exact ends_of_apply hi ha hs

/-- Code whose weakest precondition holds runs to its end over every prefix. -/
theorem ends_of_leads (hc : c.Realized p base) {is : List Instruction} {s : State}
    {Q : State → Prop} (h : leads c is s Q) : Ends p base is s Q := by
  induction is generalizing s with
  | nil => exact ⟨0, s, h, fun m j => by rw [run, Nat.zero_add]⟩
  | cons i is ih =>
    obtain ⟨n, s', hs, hrun⟩ := ends_of_leadsOne hc h
    rw [← List.singleton_append]
    exact ends_append ⟨n, s', ih hs, hrun⟩

end

end Stagecraft.Machine
