import Stagecraft.Memo

/-!
# The life of a compute-once cell

The computation that a cell is forced with may force the same cell again, as often as it likes, and
go on after that has failed. `Use` is all that can be done with a cell, a finite tree whose branches
are what the cell answers. `Life` is a cell with its history: the computations and the calls that
have ended. A call from inside a running computation meets the marked cell, so it is refused
(`run_inside`). A call from outside settles the cell or leaves it as it was
(`Stands.force`), and so does every use of it (`Stands.run`).
-/

namespace Stagecraft.Memo

variable {σ τ ε : Type}

/-- What is done with a cell, up to an answer. What is done next may depend on all that was seen. -/
inductive Use (σ τ ε : Type) where
  | answer (r : Except ε τ)
  /-- Look at the cell without forcing it. -/
  | look (next : Memo σ τ → Use σ τ ε)
  /-- Force the cell. The computation gets the suspension and is itself a use of the cell. -/
  | force (compute : σ → Use σ τ ε) (cycle : ε) (next : Except ε τ → Use σ τ ε)

/-- A force of a cell that has ended. -/
structure Call (σ τ ε : Type) where
  /-- How many computations were running for the cell; none when the call comes from outside. -/
  depth : Nat
  /-- The failure that the caller wants for a cycle. -/
  cycle : ε
  before : Memo σ τ
  answer : Except ε τ
  after : Memo σ τ

/-- The cell was being forced, the caller is told so, and the cell is still being forced. -/
structure Call.Refused (c : Call σ τ ε) : Prop where
  before : c.before = .forcing
  answer : c.answer = .error c.cycle
  after : c.after = .forcing

/-- A cell and what has happened to it, in the order of time. -/
structure Life (σ τ ε : Type) where
  cell : Memo σ τ
  /-- The computations that have ended, with their suspensions and outcomes. -/
  ended : List (σ × Except ε τ)
  /-- The forces that have ended. -/
  calls : List (Call σ τ ε)

namespace Life

/-- A cell to which nothing has happened. -/
def fresh (m : Memo σ τ) : Life σ τ ε := ⟨m, [], []⟩

/-- The cell in another state. -/
def put (m : Memo σ τ) (l : Life σ τ ε) : Life σ τ ε := { l with cell := m }

/-- A computation has ended. -/
def finish (work : σ) (r : Except ε τ) (l : Life σ τ ε) : Life σ τ ε :=
  { l with ended := l.ended ++ [(work, r)] }

/-- A call has ended. -/
def record (c : Call σ τ ε) (l : Life σ τ ε) : Life σ τ ε := { l with calls := l.calls ++ [c] }

end Life

/-- A computation that is noted when it ends. -/
def noted (x : ExceptT ε (StateM (Life σ τ ε)) τ) (work : σ) : ExceptT ε (StateM (Life σ τ ε)) τ :=
  fun l => ((x l).1, (x l).2.finish work (x l).1)

/-- A force of the cell at some depth that is noted when it ends. -/
def called (depth : Nat) (compute : σ → ExceptT ε (StateM (Life σ τ ε)) τ) (cycle : ε) :
    ExceptT ε (StateM (Life σ τ ε)) τ := fun l =>
  let (r, l') := Memo.force Life.cell Life.put compute cycle l
  (r, l'.record ⟨depth, cycle, l.cell, r, l'.cell⟩)

/-- What comes of a use of a cell. A computation runs one level deeper than the call it is for. -/
def Use.run : Use σ τ ε → Nat → ExceptT ε (StateM (Life σ τ ε)) τ
  | .answer r, _ => fun l => (r, l)
  | .look next, depth => fun l => (next l.cell).run depth l
  | .force compute cycle next, depth => fun l =>
    let (r, l') := called depth (fun work => noted ((compute work).run (depth + 1)) work) cycle l
    (next r).run depth l'

/-! ## Calls from inside -/

section

variable {compute : σ → ExceptT ε (StateM (Life σ τ ε)) τ} {cycle : ε} {l : Life σ τ ε}

theorem called_of_forcing (h : l.cell = .forcing) (depth : Nat) :
    called depth compute cycle l =
      (.error cycle, l.record ⟨depth, cycle, .forcing, .error cycle, .forcing⟩) := by
  rw [called, Memo.force, h]
  simp only [h]

theorem called_of_forced {v : τ} (h : l.cell = .forced v) (depth : Nat) :
    called depth compute cycle l =
      (.ok v, l.record ⟨depth, cycle, .forced v, .ok v, .forced v⟩) := by
  rw [called, Memo.force, h]
  simp only [h]

/-- The cell that a computation on a suspension leaves. -/
def settled (work : σ) : Except ε τ → Memo σ τ
  | .ok v => .forced v
  | .error _ => .suspended work

theorem called_of_suspended {work : σ} (h : l.cell = .suspended work) (depth : Nat)
    {r : Except ε τ} {l' : Life σ τ ε} (hrun : compute work (l.put .forcing) = (r, l')) :
    called depth compute cycle l = (r, (l'.put (settled work r)).record
      ⟨depth, cycle, .suspended work, r, settled work r⟩) := by
  rw [called, Memo.force, h]
  simp only [hrun]
  cases r <;> rfl

end

/-- While the cell is being forced, every use of it is refused: nothing is computed, and the cell
stays marked. -/
theorem Use.run_inside (u : Use σ τ ε) (depth : Nat) (l : Life σ τ ε) (h : l.cell = .forcing) :
    ∃ new, (u.run depth l).2 = { l with calls := l.calls ++ new } ∧
      ∀ c ∈ new, c.depth = depth ∧ c.Refused := by
  induction u generalizing l with
  | answer r => exact ⟨[], by rw [List.append_nil]; rfl, nofun⟩
  | look next ih => exact ih l.cell l h
  | force compute cycle next _ ih =>
    rw [Use.run]
    simp only [called_of_forcing h]
    obtain ⟨new, hnew, hrefused⟩ := ih (.error cycle)
      (l.record ⟨depth, cycle, .forcing, .error cycle, .forcing⟩) h
    refine ⟨⟨depth, cycle, .forcing, .error cycle, .forcing⟩ :: new, ?_, ?_⟩
    · rw [hnew, Life.record, List.append_assoc, List.singleton_append]
    · intro c hc
      rcases List.mem_cons.1 hc with rfl | hc
      · exact ⟨rfl, rfl, rfl, rfl⟩
      · exact hrefused c hc

/-! ## Calls from outside -/

/-- What holds of a call of a cell that was made in a state, given the computations that have ended
by then. -/
structure Call.Sound (m : Memo σ τ) (ended : List (σ × Except ε τ)) (c : Call σ τ ε) : Prop where
  /-- From outside, it fails and leaves the suspension that the cell was made with, or it returns a
  value and leaves the cell with it. -/
  returned : c.depth = 0 →
    (∃ e work, c.answer = .error e ∧ m = .suspended work ∧ c.after = .suspended work) ∨
      ∃ v, c.answer = .ok v ∧ c.after = .forced v
  /-- From outside, it answers with the value that the cell held, or with what came of the
  computation on the suspension. -/
  answered : c.depth = 0 →
    (∃ v, c.before = .forced v ∧ c.answer = .ok v) ∨
      ∃ work, c.before = .suspended work ∧ (work, c.answer) ∈ ended
  /-- From inside a computation, it is refused. -/
  refused : 0 < c.depth → c.Refused

/-- A value that is held in one state is held in the other. -/
def Keeps (a b : Memo σ τ) : Prop := ∀ v, a = .forced v → b = .forced v

/-- The states that the cell was found and left in, in the order in which the calls ended: first the
state that it was made in, last the one that it is in. -/
def Life.states (m : Memo σ τ) (l : Life σ τ ε) : List (Memo σ τ) :=
  m :: l.calls.flatMap (fun c => [c.before, c.after]) ++ [l.cell]

/-- What holds of a cell that was made in a state, whatever is done with it from outside. -/
structure Life.Stands (m : Memo σ τ) (l : Life σ τ ε) : Prop where
  /-- The cell is not left marked. -/
  idle : l.cell ≠ .forcing
  calls : ∀ c ∈ l.calls, c.Sound m l.ended
  /-- Every computation is given the suspension that the cell was made with. -/
  given : ∀ c ∈ l.ended, m = .suspended c.1
  /-- At most one computation succeeds. -/
  once : l.ended.countP (·.2.isOk) ≤ 1
  /-- The cell is as it was made, unless a computation has succeeded: then it holds the value. -/
  holds : l.cell = m ∧ l.ended.countP (·.2.isOk) = 0 ∨
    ∃ work v, (work, .ok v) ∈ l.ended ∧ l.cell = .forced v
  /-- A value that the cell holds is never lost or replaced. -/
  kept : (l.states m).Pairwise Keeps

section

variable {m a : Memo σ τ} {c : Call σ τ ε} {ended ended' : List (σ × Except ε τ)}

theorem Call.Sound.mono (h : c.Sound m ended) (hsub : ended ⊆ ended') : c.Sound m ended' :=
  ⟨h.returned, fun hdepth => (h.answered hdepth).imp_right fun ⟨work, hwork, hmem⟩ =>
    ⟨work, hwork, hsub hmem⟩, h.refused⟩

theorem Call.Refused.sound (h : c.Refused) (hdepth : 0 < c.depth) : c.Sound m ended :=
  ⟨fun h0 => absurd h0 (Nat.ne_of_gt hdepth), fun h0 => absurd h0 (Nat.ne_of_gt hdepth), fun _ => h⟩

/-- A call from outside that finds a value. -/
theorem Call.sound_of_forced (cycle : ε) (v : τ) :
    (⟨0, cycle, .forced v, .ok v, .forced v⟩ : Call σ τ ε).Sound m ended :=
  ⟨fun _ => .inr ⟨v, rfl, rfl⟩, fun _ => .inl ⟨v, rfl, rfl⟩, fun h => absurd h (Nat.lt_irrefl 0)⟩

/-- A call from outside that finds the suspension. -/
theorem Call.sound_of_suspended {work : σ} {r : Except ε τ} (cycle : ε) (hm : m = .suspended work)
    (hmem : (work, r) ∈ ended) :
    (⟨0, cycle, .suspended work, r, settled work r⟩ : Call σ τ ε).Sound m ended := by
  refine ⟨fun _ => ?_, fun _ => .inr ⟨work, rfl, hmem⟩, fun h => absurd h (Nat.lt_irrefl 0)⟩
  cases r with
  | ok v => exact .inr ⟨v, rfl, rfl⟩
  | error e => exact .inl ⟨e, work, rfl, hm, rfl⟩

theorem Keeps.refl (a : Memo σ τ) : Keeps a a := fun _ h => h

theorem Keeps.trans {b d : Memo σ τ} (h : Keeps a b) (h' : Keeps b d) : Keeps a d :=
  fun v hv => h' v (h v hv)

theorem keeps_of_value?_eq_none (h : a.value? = none) (b : Memo σ τ) : Keeps a b := by
  rintro v rfl
  cases h

/-- What was kept up to a state and is kept from there on is kept throughout. -/
theorem pairwise_keeps_append {seen later : List (Memo σ τ)} (h : (seen ++ [a]).Pairwise Keeps)
    (h' : (a :: later).Pairwise Keeps) : (seen ++ later).Pairwise Keeps := by
  obtain ⟨hseen, -, hlast⟩ := List.pairwise_append.1 h
  obtain ⟨hnext, hlater⟩ := List.pairwise_cons.1 h'
  exact List.pairwise_append.2 ⟨hseen, hlater, fun b hb d hd =>
    (hlast b hb a (List.mem_singleton_self a)).trans (hnext d hd)⟩

/-- Calls that were refused found no value, so none is lost before the call that they are inside of
ends. -/
theorem pairwise_keeps_of_refused {calls : List (Call σ τ ε)} (h : ∀ c ∈ calls, c.Refused)
    (work : σ) (a : Memo σ τ) :
    (.suspended work :: (calls.flatMap (fun c => [c.before, c.after]) ++
      [.suspended work, a, a])).Pairwise Keeps := by
  have hnone : ∀ b ∈ calls.flatMap (fun c => [c.before, c.after]), b.value? = none := by
    intro b hb
    obtain ⟨c, hc, hb⟩ := List.mem_flatMap.1 hb
    rw [(h c hc).before, (h c hc).after] at hb
    simp only [List.mem_cons, List.not_mem_nil, or_false, or_self] at hb
    rw [hb, value?]
  have hsuspended : ∀ b : Memo σ τ, Keeps (.suspended work) b := keeps_of_value?_eq_none rfl
  refine List.pairwise_cons.2 ⟨fun b _ => hsuspended b, List.pairwise_append.2
    ⟨?_, ?_, fun b hb d _ => keeps_of_value?_eq_none (hnone b hb) d⟩⟩
  · exact (List.pairwise_of_forall (R := fun _ _ => True) fun _ _ => trivial).imp_of_mem
      fun hb _ _ => keeps_of_value?_eq_none (hnone _ hb) _
  · simp [hsuspended, Keeps.refl]

end

namespace Life.Stands

variable {m : Memo σ τ} {l : Life σ τ ε} {cycle : ε}

theorem fresh (hm : m ≠ .forcing) : (Life.fresh m : Life σ τ ε).Stands m where
  idle := hm
  calls := nofun
  given := nofun
  once := Nat.zero_le 1
  holds := .inl ⟨rfl, rfl⟩
  kept := by simp [Life.states, Life.fresh, Keeps.refl]

/-- A cell with a suspension is still as it was made. -/
theorem made_of_suspended (h : l.Stands m) {work : σ} (hwork : l.cell = .suspended work) :
    m = .suspended work ∧ l.ended.countP (·.2.isOk) = 0 := by
  rcases h.holds with ⟨hm, hcount⟩ | ⟨_, _, -, hv⟩
  · exact ⟨hm ▸ hwork, hcount⟩
  · rw [hwork] at hv
    cases hv

theorem record_forced (h : l.Stands m) {v : τ} (hv : l.cell = .forced v) :
    (l.record ⟨0, cycle, .forced v, .ok v, .forced v⟩).Stands m where
  idle := h.idle
  calls := List.forall_mem_append.2
    ⟨h.calls, List.forall_mem_singleton.2 (Call.sound_of_forced cycle v)⟩
  given := h.given
  once := h.once
  holds := h.holds
  kept := by
    have hlater : (l.cell :: [.forced v, .forced v, l.cell]).Pairwise Keeps := by
      simp [hv, Keeps.refl]
    simpa [Life.states, Life.record] using pairwise_keeps_append h.kept hlater

/-- A call from outside ends that found the suspension. Those from inside its computation were
refused. -/
theorem record_suspended (h : l.Stands m) {work : σ} (hwork : l.cell = .suspended work)
    {new : List (Call σ τ ε)} (hnew : ∀ c ∈ new, 0 < c.depth ∧ c.Refused) (r : Except ε τ) :
    (⟨settled work r, l.ended ++ [(work, r)],
      l.calls ++ new ++ [⟨0, cycle, .suspended work, r, settled work r⟩]⟩ :
      Life σ τ ε).Stands m where
  idle := by cases r <;> exact nofun
  calls := by
    have hmem : (work, r) ∈ l.ended ++ [(work, r)] :=
      List.mem_append_right _ (List.mem_singleton_self _)
    refine List.forall_mem_append.2 ⟨List.forall_mem_append.2 ⟨fun c hc => ?_, fun c hc => ?_⟩,
      List.forall_mem_singleton.2 ?_⟩
    · exact (h.calls c hc).mono (List.subset_append_left _ _)
    · exact (hnew c hc).2.sound (hnew c hc).1
    · exact Call.sound_of_suspended cycle (h.made_of_suspended hwork).1 hmem
  given := List.forall_mem_append.2
    ⟨h.given, List.forall_mem_singleton.2 (h.made_of_suspended hwork).1⟩
  once := by
    rw [List.countP_append, (h.made_of_suspended hwork).2, Nat.zero_add]
    exact List.countP_le_length
  holds := by
    obtain ⟨hm, hcount⟩ := h.made_of_suspended hwork
    cases r with
    | ok v => exact .inr ⟨work, v, List.mem_append_right _ (List.mem_singleton_self _), rfl⟩
    | error e =>
      refine .inl ⟨hm.symm, ?_⟩
      rw [List.countP_append, hcount]
      rfl
  kept := by
    have hlater := pairwise_keeps_of_refused (fun c hc => (hnew c hc).2) work (settled work r)
    rw [← hwork] at hlater
    simpa [Life.states, hwork] using pairwise_keeps_append h.kept hlater

/-- A call from outside, whatever its computation does with the cell. -/
theorem force (h : l.Stands m) (compute : σ → Use σ τ ε) (cycle : ε) :
    (called 0 (fun work => noted ((compute work).run 1) work) cycle l).2.Stands m := by
  cases hcell : l.cell with
  | forcing => exact absurd hcell h.idle
  | forced v =>
    rw [called_of_forced hcell]
    exact h.record_forced hcell
  | suspended work =>
    -- The cell is marked until the computation ends, so nothing inside it gets past the mark.
    obtain ⟨new, hrun, hnew⟩ := (compute work).run_inside 1 (l.put .forcing) rfl
    rw [called_of_suspended hcell 0 (r := ((compute work).run 1 (l.put .forcing)).1) rfl, hrun]
    exact h.record_suspended hcell (fun c hc => ⟨(hnew c hc).1 ▸ Nat.one_pos, (hnew c hc).2⟩) _

/-- Whatever is done with the cell from outside. -/
theorem run (h : l.Stands m) (u : Use σ τ ε) : (u.run 0 l).2.Stands m := by
  induction u generalizing l with
  | answer r => exact h
  | look next ih => exact ih l.cell h
  | force compute cycle next _ ih => exact ih _ (h.force compute cycle)

end Life.Stands

/-- A cell stands by the suspension or the value that it was made with, however it is used from
outside and from inside the computations that it is forced with: it is never left marked; a call
from outside fails and puts the suspension back, or returns the value that the cell then holds; at
most one computation succeeds, and a value stays; a call from inside fails as its caller says. -/
theorem stands_of_use (m : Memo σ τ) (hm : m ≠ .forcing) (u : Use σ τ ε) :
    (u.run 0 (.fresh m)).2.Stands m :=
  (Life.Stands.fresh hm).run u

/-- A computation that forces its own cell, forgets that this fails, and fails itself; then a second
attempt that does the same and returns a value, and a third that finds it. -/
def stubborn : Use Nat Nat String :=
  let again (next : Use Nat Nat String) : Use Nat Nat String :=
    .force (fun _ => .answer (.ok 0)) "cycle" fun _ => next
  .force (fun _ => again (.answer (.error "boom"))) "outer" fun _ =>
    .force (fun n => again (.answer (.ok (n + 1)))) "outer" fun _ =>
      .force (fun _ => .answer (.ok 0)) "outer" .answer

theorem stands_stubborn : (.suspended 20 : Memo Nat Nat) ≠ .forcing ∧
    (stubborn.run 0 (.fresh (.suspended 20))).1 = .ok 21 ∧
    (stubborn.run 0 (.fresh (.suspended 20))).2.Stands (.suspended 20) :=
  ⟨nofun, rfl, stands_of_use (.suspended 20) nofun stubborn⟩

end Stagecraft.Memo
