import Stagecraft.Proofs.World

/-!
# What happens to cells

While the evaluator runs, cells are made and forces of cells come to an end, one inside or after
another. `Trace` says which of these events a run has, part by part. `History` says what events do
from one store to a later one, whatever the run was (`Trace.history`). They decide which cells are
marked as forced: a cell holds a value exactly if it held it before, was made with it, or was forced
to it (`History.read_eq_forced_iff`). So a mark is set by the first force that succeeds and is never
taken back (`History.read_forced`).
-/

namespace Stagecraft.Eval

/-- How a computation ends, as a result. Running out of fuel is no end. -/
def EvalM.attempt {α : Type} (x : EvalM α) : EvalM (Except Error α) := fun s =>
  match x s with
  | (.ok a, s') => (.ok (.ok a), s')
  | (.error (.failed e), s') => (.ok (.error e), s')
  | (.error .outOfFuel, s') => (.error .outOfFuel, s')

/-- The value of a cell, evaluated again if the cell suspends a term. -/
def forceAnew (eval : Evaluation) (c : CellId) : EvalM Value := fun s =>
  match s.read c with
  | .suspended work => eval work.env work.term s
  | .forcing => (.error (.failed .cyclicValue), s)
  | .forced v => (.ok v, s)

/-- What can happen to a cell. -/
inductive Event where
  /-- The cell is made with its value. -/
  | known (c : CellId) (v : Value)
  /-- A force of the cell ends with a value. -/
  | forced (c : CellId) (v : Value)
  /-- A force of the cell ends with a failure. -/
  | failed (c : CellId) (e : Error)

/-- The event leaves a cell marked with a value. -/
def Event.Marks (c : CellId) (v : Value) : Event → Prop
  | .known d u | .forced d u => d = c ∧ u = v
  | .failed .. => False

theorem Event.exists_marks_iff {L : List Event} {c : CellId} {v : Value} :
    (∃ ev ∈ L, ev.Marks c v) ↔ .known c v ∈ L ∨ .forced c v ∈ L := by
  constructor
  · rintro ⟨ev, hev, hmarks⟩
    cases ev with
    | known d u =>
      obtain ⟨rfl, rfl⟩ := hmarks
      exact .inl hev
    | forced d u =>
      obtain ⟨rfl, rfl⟩ := hmarks
      exact .inr hev
    | failed => exact hmarks.elim
  · rintro (hev | hev)
    · exact ⟨_, hev, rfl, rfl⟩
    · exact ⟨_, hev, rfl, rfl⟩

/-- The events of a run that starts at a store, in the order of time. A force ends after the forces
inside it. To evaluate a cell anew is not to force it. -/
inductive Trace (cx : Context) : {α : Type} → EvalM α → Store → List Event → Prop
  | pure {α} {a : α} {s} : Trace cx (pure a) s []
  | fail {α e s} : Trace cx (EvalM.fail e : EvalM α) s []
  | suspend {env t s} : Trace cx (EvalM.suspend env t) s []
  | known {v s} : Trace cx (EvalM.alloc (.forced v)) s [.known s.cells.size v]
  | bind {α β} {x : EvalM α} {f : α → EvalM β} {s s₁ a L L'} : x s = (.ok a, s₁) →
      Trace cx x s L → Trace cx (f a) s₁ L' → Trace cx (x >>= f) s (L ++ L')
  | stopped {α β} {x : EvalM α} {f : α → EvalM β} {s s₁ e L} : x s = (.error e, s₁) →
      Trace cx x s L → Trace cx (x >>= f) s L
  | first {α} {x x' : EvalM α} {s s₁ a L} : x s = (.ok a, s₁) →
      Trace cx x s L → Trace cx (EvalM.orElse x x') s L
  | second {α} {x x' : EvalM α} {s s₁ e L L'} : x s = (.error (.failed e), s₁) →
      Trace cx x s L → Trace cx x' s₁ L' → Trace cx (EvalM.orElse x x') s (L ++ L')
  | attempt {α} {x : EvalM α} {s L} : Trace cx x s L → Trace cx x.attempt s L
  | kept {s c v n} : s.read c = .forced v →
      Trace cx (force (evaluate cx n) c) s [.forced c v]
  | forced {s s₁ c work n v L} : s.read c = .suspended work →
      evaluate cx n work.env work.term (s.write c .forcing) = (.ok v, s₁) →
      Trace cx (evaluate cx n work.env work.term) (s.write c .forcing) L →
      Trace cx (force (evaluate cx n) c) s (L ++ [.forced c v])
  | failed {s s₁ c work n e L} : s.read c = .suspended work →
      evaluate cx n work.env work.term (s.write c .forcing) = (.error (.failed e), s₁) →
      Trace cx (evaluate cx n work.env work.term) (s.write c .forcing) L →
      Trace cx (force (evaluate cx n) c) s (L ++ [.failed c e])
  | seen {eval s c v} : s.read c = .forced v → Trace cx (forceAnew eval c) s []
  | anew {eval s c work L} : s.read c = .suspended work →
      Trace cx (eval work.env work.term) s L → Trace cx (forceAnew eval c) s L

/-- What events do from one store to another. -/
inductive History (cx : Context) : Store → List Event → Store → Prop
  | nothing {s} : History cx s [] s
  | append {s s₁ s₂ L L'} : History cx s L s₁ → History cx s₁ L' s₂ → History cx s (L ++ L') s₂
  | suspend {s} (work : Suspension) : History cx s [] (s.alloc (.suspended work)).2
  | known {s} (v : Value) : History cx s [.known s.cells.size v] (s.alloc (.forced v)).2
  | kept {s c v} : s.read c = .forced v → History cx s [.forced c v] s
  | forced {s s₁ c work n v L} : s.read c = .suspended work →
      evaluate cx n work.env work.term (s.write c .forcing) = (.ok v, s₁) →
      History cx (s.write c .forcing) L s₁ →
      History cx s (L ++ [.forced c v]) (s₁.write c (.forced v))
  | failed {s s₁ c work n e L} : s.read c = .suspended work →
      evaluate cx n work.env work.term (s.write c .forcing) = (.error (.failed e), s₁) →
      History cx (s.write c .forcing) L s₁ →
      History cx s (L ++ [.failed c e]) (s₁.write c (.suspended work))

namespace Store

/-- A cell that is not being forced was allocated. -/
theorem lt_size_of_read {c : CellId} {cell : Cell} {s : Store} (h : s.read c = cell)
    (hcell : cell ≠ .forcing) : c < s.cells.size := by
  by_contra hlt
  refine hcell ?_
  rw [← h, read, Array.getElem?_eq_none (Nat.le_of_not_lt hlt), Option.getD_none]

/-- A new cell is the only one whose content is new. -/
theorem read_alloc (cell : Cell) (s : Store) (d : CellId) :
    (s.alloc cell).2.read d = if d = s.cells.size then cell else s.read d := by
  by_cases hd : d = s.cells.size
  · rw [if_pos hd, hd, read_alloc_size]
  · rw [if_neg hd]
    by_cases hlt : d < s.cells.size
    · exact read_alloc_of_lt hlt
    · have hout : (s.alloc cell).2.cells.size ≤ d := by
        rw [size_alloc]
        exact Nat.lt_of_le_of_ne (Nat.le_of_not_lt hlt) (Ne.symm hd)
      rw [read, read, Array.getElem?_eq_none hout, Array.getElem?_eq_none (Nat.le_of_not_lt hlt)]

theorem read_size (s : Store) : s.read s.cells.size = .forcing := by
  rw [read, Array.getElem?_eq_none (Nat.le_refl _), Option.getD_none]

end Store

/-- A force that succeeds leaves its cell marked. -/
theorem read_of_force {eval : Evaluation} {c : CellId} {s s' : Store} {v : Value}
    (h : force eval c s = (.ok v, s')) (hc : c < s'.cells.size) : s'.read c = .forced v := by
  unfold force Memo.force at h
  split at h
  · next hread =>
    cases h
    exact hread
  · cases h
  · split at h
    · next s₁ _ =>
      cases h
      rw [Store.size_write] at hc
      rw [Store.read_write c c _ s₁ hc, if_pos rfl]
    · cases h

namespace History

variable {cx : Context} {s s₁ s' : Store} {L : List Event} {c : CellId} {work : Suspension}

theorem size_le (h : History cx s L s') : s.cells.size ≤ s'.cells.size := by
  induction h with
  | nothing | kept => exact Nat.le_refl _
  | append _ _ ih ih' => exact Nat.le_trans ih ih'
  | suspend | known =>
    rw [Store.size_alloc]
    exact Nat.le_succ _
  | forced _ _ _ ih | failed _ _ _ ih =>
    rw [Store.size_write] at ih
    rw [Store.size_write]
    exact ih

/-- A cell that is being forced is not touched by what runs inside. -/
theorem read_forcing (h : History cx s L s') (hc : c < s.cells.size) (hread : s.read c = .forcing) :
    s'.read c = .forcing := by
  induction h with
  | nothing | kept => exact hread
  | append h _ ih ih' => exact ih' (Nat.lt_of_lt_of_le hc h.size_le) (ih hc hread)
  | suspend | known =>
    rw [Store.read_alloc_of_lt hc]
    exact hread
  | @forced s s₁ d _ _ _ _ hd _ h ih | @failed s s₁ d _ _ _ _ hd _ h ih =>
    have hne : c ≠ d := by
      intro heq
      rw [heq, hd] at hread
      cases hread
    have hlt : d < s.cells.size := Store.lt_size_of_read hd nofun
    have hinside : (s.write d .forcing).read c = .forcing := by
      rw [Store.read_write d c _ s hlt, if_neg hne]
      exact hread
    have hsize := h.size_le
    rw [Store.size_write] at hsize
    rw [Store.read_write d c _ s₁ (Nat.lt_of_lt_of_le hlt hsize), if_neg hne]
    exact ih (by rwa [Store.size_write]) hinside

/-- A run inside a force of a cell leaves the cell as it is, so it changes the other cells only. -/
theorem read_of_inside (h : History cx (s.write c .forcing) L s₁) (hc : s.read c = .suspended work)
    (cell : Cell) (d : CellId) :
    (s₁.write c cell).read d = if d = c then cell else s₁.read d := by
  have hlt : c < s.cells.size := Store.lt_size_of_read hc nofun
  have hsize := h.size_le
  rw [Store.size_write] at hsize
  exact Store.read_write c d cell s₁ (Nat.lt_of_lt_of_le hlt hsize)

/-- Inside a force of a cell, no event marks the cell: it is being forced until the force ends. -/
theorem not_marks_of_inside {L : List Event} (h : History cx (s.write c .forcing) L s₁)
    (hc : s.read c = .suspended work) (v : Value)
    (hmarks : s₁.read c = .forced v ↔
      (s.write c .forcing).read c = .forced v ∨ ∃ ev ∈ L, ev.Marks c v) :
    ¬ ∃ ev ∈ L, ev.Marks c v := by
  intro hev
  have hlt : c < s.cells.size := Store.lt_size_of_read hc nofun
  have hinside : (s.write c .forcing).read c = .forcing := by
    rw [Store.read_write c c _ s hlt, if_pos rfl]
  have hforcing := h.read_forcing (by rwa [Store.size_write]) hinside
  have hforced := hmarks.2 (.inr hev)
  rw [hforcing] at hforced
  cases hforced

/-- What the last event of a force of a cell does to the marks. -/
theorem marks_append {L : List Event} {ev : Event} {v : Value} :
    (∃ e ∈ L ++ [ev], e.Marks c v) ↔ (∃ e ∈ L, e.Marks c v) ∨ ev.Marks c v := by
  simp only [List.mem_append, List.mem_singleton]
  constructor
  · rintro ⟨e, he | rfl, hmarks⟩
    · exact .inl ⟨e, he, hmarks⟩
    · exact .inr hmarks
  · rintro (⟨e, he, hmarks⟩ | hmarks)
    · exact ⟨e, .inl he, hmarks⟩
    · exact ⟨ev, .inr rfl, hmarks⟩

/-- A force of a cell has ended: the other cells are as the run inside left them, and of this one
the last event tells. -/
theorem marks_of_inside {L : List Event} {ev : Event} {cell : Cell}
    (h : History cx (s.write c .forcing) L s₁) (hc : s.read c = .suspended work)
    (hmarks : ∀ d v, s₁.read d = .forced v ↔
      (s.write c .forcing).read d = .forced v ∨ ∃ e ∈ L, e.Marks d v)
    (hother : ∀ d v, d ≠ c → ¬ ev.Marks d v) (hself : ∀ v, cell = .forced v ↔ ev.Marks c v)
    (d : CellId) (v : Value) :
    (s₁.write c cell).read d = .forced v ↔
      s.read d = .forced v ∨ ∃ e ∈ L ++ [ev], e.Marks d v := by
  rw [marks_append, h.read_of_inside hc]
  by_cases hd : d = c
  · subst hd
    have hnone := h.not_marks_of_inside hc v (hmarks d v)
    rw [if_pos rfl, hself, hc]
    simp only [reduceCtorEq, hnone, false_or]
  · have hlt : c < s.cells.size := Store.lt_size_of_read hc nofun
    rw [if_neg hd, hmarks, Store.read_write c d _ s hlt, if_neg hd]
    simp only [hother d v hd, or_false]

/-- A cell holds a value if it held it, was made with it or was forced to it. -/
theorem read_eq_forced_iff (h : History cx s L s') (d : CellId) (v : Value) :
    s'.read d = .forced v ↔ s.read d = .forced v ∨ ∃ ev ∈ L, ev.Marks d v := by
  induction h generalizing d v with
  | nothing => simp only [List.not_mem_nil, false_and, exists_false, or_false]
  | append _ _ ih ih' =>
    rw [ih', ih, or_assoc]
    simp only [List.mem_append, or_and_right, exists_or]
  | @suspend s work =>
    rw [Store.read_alloc]
    simp only [List.not_mem_nil, false_and, exists_false, or_false]
    by_cases hd : d = s.cells.size
    · rw [if_pos hd, hd, Store.read_size]
      simp only [reduceCtorEq]
    · rw [if_neg hd]
  | @known s u =>
    rw [Store.read_alloc]
    simp only [List.mem_singleton, exists_eq_left, Event.Marks]
    by_cases hd : d = s.cells.size
    · rw [if_pos hd, hd, Store.read_size]
      simp only [Memo.forced.injEq, reduceCtorEq, false_or, true_and]
    · rw [if_neg hd]
      simp only [Ne.symm hd, false_and, or_false]
  | @kept s c u hread =>
    simp only [List.mem_singleton, exists_eq_left, Event.Marks]
    constructor
    · exact .inl
    · rintro (hd | ⟨rfl, rfl⟩)
      · exact hd
      · exact hread
  | forced hc _ h ih =>
    refine h.marks_of_inside hc ih (fun d v hd => ?_) (fun v => ?_) d v
    · exact fun hmarks => hd hmarks.1.symm
    · simp only [Event.Marks, Memo.forced.injEq, true_and]
  | failed hc _ h ih =>
    refine h.marks_of_inside hc ih (fun d v hd => ?_) (fun v => ?_) d v
    · exact id
    · simp only [Event.Marks, reduceCtorEq]

/-- A value that a cell holds, it holds from then on. -/
theorem read_forced (h : History cx s L s') {v : Value} (hread : s.read c = .forced v) :
    s'.read c = .forced v :=
  (h.read_eq_forced_iff c v).2 (.inl hread)

/-- Only a new cell is made with its value. -/
theorem size_le_of_known (h : History cx s L s') {v : Value} (hev : .known c v ∈ L) :
    s.cells.size ≤ c := by
  induction h with
  | nothing | suspend => cases hev
  | append h _ ih ih' =>
    rcases List.mem_append.1 hev with hev | hev
    · exact ih hev
    · exact Nat.le_trans h.size_le (ih' hev)
  | known =>
    cases List.mem_singleton.1 hev
    exact Nat.le_refl _
  | kept => cases List.mem_singleton.1 hev
  | forced _ _ _ ih | failed _ _ _ ih =>
    rcases List.mem_append.1 hev with hev | hev
    · have hle := ih hev
      rwa [Store.size_write] at hle
    · cases List.mem_singleton.1 hev

end History

/-- The events of a run are what happens to the store. -/
theorem Trace.history {cx : Context} {α : Type} {x : EvalM α} {s : Store} {L : List Event}
    (h : Trace cx x s L) : History cx s L (x s).2 := by
  induction h with
  | pure | fail => exact .nothing
  | suspend => exact .suspend _
  | known => exact .known _
  | bind hx _ _ ih ih' =>
    rw [hx] at ih
    rw [EvalM.run_bind, hx]
    exact ih.append ih'
  | stopped hx _ ih =>
    rw [EvalM.run_bind]
    rw [hx] at ih ⊢
    exact ih
  | first hx _ ih =>
    unfold EvalM.orElse
    rw [hx] at ih ⊢
    exact ih
  | second hx _ _ ih ih' =>
    unfold EvalM.orElse
    rw [hx] at ih ⊢
    exact ih.append ih'
  | @attempt _ x s _ _ ih =>
    unfold EvalM.attempt
    rcases hx : x s with ⟨(_ | _) | _, s₁⟩ <;> rwa [hx] at ih
  | kept hc =>
    rw [force, Memo.force, hc]
    exact .kept hc
  | forced hc hrun _ ih =>
    rw [hrun] at ih
    rw [force, Memo.force, hc]
    dsimp only
    rw [hrun]
    exact .forced hc hrun ih
  | failed hc hrun _ ih =>
    rw [hrun] at ih
    rw [force, Memo.force, hc]
    dsimp only
    rw [hrun]
    exact .failed hc hrun ih
  | seen hc =>
    rw [forceAnew, hc]
    exact .nothing
  | anew hc _ ih =>
    rw [forceAnew, hc]
    exact ih

end Stagecraft.Eval
