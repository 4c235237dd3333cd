import Mathlib.Algebra.Order.Field.Basic
import Mathlib.Algebra.Order.Ring.Rat
import Mathlib.Algebra.Field.Rat
import Stagecraft.Proofs.ByNameFuel
import Stagecraft.Proofs.History
import Stagecraft.Proofs.PatternAgreement

/-!
# Cells and the thunks they stand for

A chart says for the cells of a store which thunks they stand for. It also ranks them: the content of
a cell refers to cells of smaller rank only, so whatever runs while a cell is being forced stays
below its rank, and no cell is forced while it is being forced. Ranks are rational numbers because
the cells made during such a run take ranks between those of the cells they refer to and that of the
cell being forced.

`Tracks` is the logic that compares a computation on the store with a computation by name. It has
two modes. In the first the computation on the store is known to end, and the one by name ends the
same way with enough fuel; in the second the computation by name ends with some fuel, and the one on
the store ends the same way with the same fuel. The rules are those of both. Of the run on the store it
also says that it has a trace, and that the forces that failed in it were of thunks that fail.
-/

namespace Stagecraft.Eval.ByName

open Staged (Ty Pattern Term)

/-- The thunks that some cells stand for, each at a rank. -/
def Chart := CellId → Option (Thunk × ℚ)

namespace Chart

/-- A larger chart says the same of the cells of a smaller one. -/
instance : LE Chart := ⟨fun Φ Φ' => ∀ c e, Φ c = some e → Φ' c = some e⟩

variable {Φ Φ' Φ'' : Chart}

theorem le_refl (Φ : Chart) : Φ ≤ Φ := fun _ _ h => h

theorem le_trans (h : Φ ≤ Φ') (k : Φ' ≤ Φ'') : Φ ≤ Φ'' := fun c e hc => k c e (h c e hc)

/-- A chart with one more cell. -/
def put (Φ : Chart) (c : CellId) (e : Thunk × ℚ) : Chart := fun d => if d = c then some e else Φ d

theorem put_self (Φ : Chart) (c : CellId) (e : Thunk × ℚ) : Φ.put c e c = some e := if_pos rfl

theorem put_of_ne (Φ : Chart) {c d : CellId} (e : Thunk × ℚ) (h : d ≠ c) : Φ.put c e d = Φ d :=
  if_neg h

/-- The chart says of every cell of a store what it stands for. -/
def Covers (Φ : Chart) (s : Store) : Prop := ∀ c, c < s.cells.size → Φ c ≠ none

theorem le_put {c : CellId} (h : Φ c = none) (e : Thunk × ℚ) : Φ ≤ Φ.put c e := by
  intro d e' hd
  have hne : d ≠ c := fun heq => by rw [heq, h] at hd; cases hd
  rw [put_of_ne Φ e hne, hd]

end Chart

/-! ## Values in a chart -/

/-- A cell that stands for a thunk, at a rank below a bound. -/
def Stands (Φ : Chart) (q : ℚ) (θ : Thunk) (c : CellId) : Prop := ∃ r, r < q ∧ Φ c = some (θ, r)

/-- Cells that stand for thunks, one each. -/
def Parts (Φ : Chart) (q : ℚ) : List Thunk → List CellId → Prop := List.Forall₂ (Stands Φ q)

/-- Fields whose cells stand for those of a record by name. -/
def FieldParts (Φ : Chart) (q : ℚ) : List (String × Thunk) → List (String × CellId) → Prop :=
  List.Forall₂ fun e f => e.1 = f.1 ∧ Stands Φ q e.2 f.2

/-- An environment whose cells stand for thunks, level by level. -/
structure EnvStands (Φ : Chart) (q : ℚ) (ρ : List Thunk) (depth : Nat) (env : Env) : Prop where
  depth : env.depth = depth
  cells : Parts Φ q ρ env.cells.items

/-- The same value in both worlds. -/
inductive Depicts (Φ : Chart) (q : ℚ) : Value → Eval.Value → Prop
  | literal {l} : Depicts Φ q (.literal l) (.literal l)
  | array {kind θs cs} : Parts Φ q θs cs → Depicts Φ q (.array kind θs) (.array kind cs)
  | list {θs cs} : Parts Φ q θs cs → Depicts Φ q (.list θs) (.list cs)
  | compound {fs gs} : FieldParts Φ q fs gs → Depicts Φ q (.compound fs) (.compound gs)
  | ref {θ c} : Stands Φ q θ c → Depicts Φ q (.ref θ) (.ref c)
  | tuple {θs cs} : Parts Φ q θs cs → Depicts Φ q (.tuple θs) (.tuple cs)
  | closure {p b ρ depth env} : EnvStands Φ q ρ depth env →
      Depicts Φ q (.closure p b ρ depth) (.closure p b env)
  | quote {θ c} : Stands Φ q θ c → Depicts Φ q (.quote θ) (.quote c)
  | var {v} : Depicts Φ q (.var v) (.var v)
  | apply {f f' θ c ty} : Depicts Φ q f f' → Stands Φ q θ c →
      Depicts Φ q (.apply f θ ty) (.apply f' c ty)
  | cond {v v' θ θ' c c'} : Depicts Φ q v v' → Stands Φ q θ c → Stands Φ q θ' c' →
      Depicts Φ q (.cond v θ θ') (.cond v' c c')
  | call {name v v' ty} : Depicts Φ q v v' → Depicts Φ q (.call name v ty) (.call name v' ty)
  | test {v v' p ty} : Depicts Φ q v v' → Depicts Φ q (.test v p ty) (.test v' p ty)
  | command {line} : Depicts Φ q (.command line) (.command line)
  | splice {v v' ty} : Depicts Φ q v v' → Depicts Φ q (.splice v ty) (.splice v' ty)
  | project {p v v' x} : Depicts Φ q v v' → Depicts Φ q (.project p v x) (.project p v' x)

section

variable {Φ Φ' : Chart} {q q' : ℚ}

theorem Stands.mono (hle : Φ ≤ Φ') (hq : q ≤ q') {θ : Thunk} {c : CellId} (h : Stands Φ q θ c) :
    Stands Φ' q' θ c := by
  obtain ⟨r, hr, hc⟩ := h
  exact ⟨r, lt_of_lt_of_le hr hq, hle _ _ hc⟩

theorem Parts.mono (hle : Φ ≤ Φ') (hq : q ≤ q') {θs : List Thunk} {cs : List CellId}
    (h : Parts Φ q θs cs) : Parts Φ' q' θs cs :=
  h.imp fun _ _ hc => hc.mono hle hq

theorem FieldParts.mono (hle : Φ ≤ Φ') (hq : q ≤ q') {fs : List (String × Thunk)}
    {gs : List (String × CellId)} (h : FieldParts Φ q fs gs) : FieldParts Φ' q' fs gs :=
  h.imp fun _ _ hf => ⟨hf.1, hf.2.mono hle hq⟩

theorem EnvStands.mono (hle : Φ ≤ Φ') (hq : q ≤ q') {ρ : List Thunk} {depth : Nat} {env : Env}
    (h : EnvStands Φ q ρ depth env) : EnvStands Φ' q' ρ depth env :=
  ⟨h.depth, h.cells.mono hle hq⟩

theorem Depicts.mono (hle : Φ ≤ Φ') (hq : q ≤ q') {v : Value} {u : Eval.Value}
    (h : Depicts Φ q v u) : Depicts Φ' q' v u := by
  induction h with
  | literal => exact .literal
  | array h => exact .array (h.mono hle hq)
  | list h => exact .list (h.mono hle hq)
  | compound h => exact .compound (h.mono hle hq)
  | ref h => exact .ref (h.mono hle hq)
  | tuple h => exact .tuple (h.mono hle hq)
  | closure h => exact .closure (h.mono hle hq)
  | quote h => exact .quote (h.mono hle hq)
  | var => exact .var
  | apply _ h ih => exact .apply ih (h.mono hle hq)
  | cond _ h h' ih => exact .cond ih (h.mono hle hq) (h'.mono hle hq)
  | call _ ih => exact .call ih
  | test _ ih => exact .test ih
  | command => exact .command
  | splice _ ih => exact .splice ih
  | project _ ih => exact .project ih

theorem Depicts.isNeutral {v : Value} {u : Eval.Value} (h : Depicts Φ q v u) :
    u.isNeutral = v.isNeutral := by
  cases h <;> rfl

theorem Depicts.head {v : Value} {u : Eval.Value} (h : Depicts Φ q v u) : u.head = v.head := by
  cases h <;> rfl

theorem Depicts.bool? {v : Value} {u : Eval.Value} (h : Depicts Φ q v u) :
    u.bool? = v.seen.bool? := by
  cases h <;> rfl

theorem Depicts.int? {v : Value} {u : Eval.Value} (h : Depicts Φ q v u) :
    u.int? = v.seen.int? := by
  cases h <;> rfl

theorem Depicts.atPattern {v : Value} {u : Eval.Value} (h : Depicts Φ q v u) (p : Pattern) :
    Error.atPattern u p = ByName.atPattern v p := by
  rw [Error.atPattern, ByName.atPattern, h.head]

theorem Depicts.atType {v : Value} {u : Eval.Value} (h : Depicts Φ q v u) (ty : Ty) :
    Error.atType u ty = ByName.atType v ty := by
  rw [Error.atType, ByName.atType, h.head]

/-! ## Room below a rank

What a chart says below a bound, it says below a smaller one: only finitely many cells take part. -/

/-- Two things that hold below smaller bounds hold below one. -/
theorem exists_rank_and {P Q : ℚ → Prop} (hP : ∀ r r', r ≤ r' → P r → P r')
    (hQ : ∀ r r', r ≤ r' → Q r → Q r') (h : ∃ r, r < q ∧ P r) (k : ∃ r, r < q ∧ Q r) :
    ∃ r, r < q ∧ P r ∧ Q r := by
  obtain ⟨r, hr, hPr⟩ := h
  obtain ⟨r', hr', hQr⟩ := k
  exact ⟨max r r', max_lt hr hr', hP r _ (le_max_left r r') hPr, hQ r' _ (le_max_right r r') hQr⟩

theorem Stands.exists_rank {θ : Thunk} {c : CellId} (h : Stands Φ q θ c) :
    ∃ r, r < q ∧ Stands Φ r θ c := by
  obtain ⟨r, hr, hc⟩ := h
  obtain ⟨m, hrm, hmq⟩ := exists_between hr
  exact ⟨m, hmq, r, hrm, hc⟩

theorem Parts.exists_rank {θs : List Thunk} {cs : List CellId} (h : Parts Φ q θs cs) :
    ∃ r, r < q ∧ Parts Φ r θs cs := by
  induction h with
  | nil =>
    obtain ⟨r, hr⟩ := exists_lt q
    exact ⟨r, hr, .nil⟩
  | cons hc _ ih =>
    obtain ⟨r, hr, hc', hcs⟩ := exists_rank_and
      (fun _ _ hq => Stands.mono (Chart.le_refl Φ) hq)
      (fun _ _ hq => Parts.mono (Chart.le_refl Φ) hq) (Stands.exists_rank hc) ih
    exact ⟨r, hr, .cons hc' hcs⟩

theorem FieldParts.exists_rank {fs : List (String × Thunk)} {gs : List (String × CellId)}
    (h : FieldParts Φ q fs gs) : ∃ r, r < q ∧ FieldParts Φ r fs gs := by
  induction h with
  | nil =>
    obtain ⟨r, hr⟩ := exists_lt q
    exact ⟨r, hr, .nil⟩
  | cons hf _ ih =>
    obtain ⟨r, hr, hc, hrest⟩ := exists_rank_and
      (fun _ _ hq => Stands.mono (Chart.le_refl Φ) hq)
      (fun _ _ hq => FieldParts.mono (Chart.le_refl Φ) hq) (Stands.exists_rank hf.2) ih
    exact ⟨r, hr, .cons ⟨hf.1, hc⟩ hrest⟩

theorem EnvStands.exists_rank {ρ : List Thunk} {depth : Nat} {env : Env}
    (h : EnvStands Φ q ρ depth env) : ∃ r, r < q ∧ EnvStands Φ r ρ depth env := by
  obtain ⟨r, hr, hcells⟩ := h.cells.exists_rank
  exact ⟨r, hr, h.depth, hcells⟩

theorem Depicts.exists_rank {v : Value} {u : Eval.Value} (h : Depicts Φ q v u) :
    ∃ r, r < q ∧ Depicts Φ r v u := by
  have hstands : ∀ {θ c} (r r' : ℚ), r ≤ r' → Stands Φ r θ c → Stands Φ r' θ c :=
    fun _ _ hq => Stands.mono (Chart.le_refl Φ) hq
  have hdepicts : ∀ {v u} (r r' : ℚ), r ≤ r' → Depicts Φ r v u → Depicts Φ r' v u :=
    fun _ _ hq => Depicts.mono (Chart.le_refl Φ) hq
  induction h with
  | literal => exact (exists_lt q).imp fun r hr => ⟨hr, .literal⟩
  | array h => exact h.exists_rank.imp fun r h => ⟨h.1, .array h.2⟩
  | list h => exact h.exists_rank.imp fun r h => ⟨h.1, .list h.2⟩
  | compound h => exact h.exists_rank.imp fun r h => ⟨h.1, .compound h.2⟩
  | ref h => exact h.exists_rank.imp fun r h => ⟨h.1, .ref h.2⟩
  | tuple h => exact h.exists_rank.imp fun r h => ⟨h.1, .tuple h.2⟩
  | closure h => exact h.exists_rank.imp fun r h => ⟨h.1, .closure h.2⟩
  | quote h => exact h.exists_rank.imp fun r h => ⟨h.1, .quote h.2⟩
  | var => exact (exists_lt q).imp fun r hr => ⟨hr, .var⟩
  | apply _ h ih =>
    exact (exists_rank_and hdepicts hstands ih h.exists_rank).imp fun r h =>
      ⟨h.1, .apply h.2.1 h.2.2⟩
  | cond _ h h' ih =>
    have hboth := exists_rank_and hstands hstands h.exists_rank h'.exists_rank
    refine (exists_rank_and hdepicts ?_ ih hboth).imp fun r h => ⟨h.1, .cond h.2.1 h.2.2.1 h.2.2.2⟩
    exact fun r r' hq h => ⟨hstands r r' hq h.1, hstands r r' hq h.2⟩
  | call _ ih => exact ih.imp fun r h => ⟨h.1, .call h.2⟩
  | test _ ih => exact ih.imp fun r h => ⟨h.1, .test h.2⟩
  | command => exact (exists_lt q).imp fun r hr => ⟨hr, .command⟩
  | splice _ ih => exact ih.imp fun r h => ⟨h.1, .splice h.2⟩
  | project _ ih => exact ih.imp fun r h => ⟨h.1, .project h.2⟩

end

/-! ## Charted stores -/

/-- The value that a thunk has, with enough fuel. -/
def Gives (cx : Context) (θ : Thunk) (v : Value) : Prop :=
  ∃ n, force (evaluate cx n) θ = .ok v

/-- The failure that a thunk has, with enough fuel. -/
def Fails (cx : Context) (θ : Thunk) (e : Error) : Prop :=
  ∃ n, force (evaluate cx n) θ = .error (.failed e)

section

variable (cx : Context)

/-- A cell that suspends or holds what it stands for, with everything below its rank. -/
def CellDepicts (Φ : Chart) (r : ℚ) (θ : Thunk) : Cell → Prop
  | .suspended work => ∃ ρ depth, θ = .delayed ρ depth work.term ∧ EnvStands Φ r ρ depth work.env
  | .forcing => False
  | .forced u => ∃ v, Gives cx θ v ∧ Depicts Φ r v u

/-- A store that agrees with a chart below a bound. -/
def Charted (Φ : Chart) (q : ℚ) (s : Store) : Prop :=
  ∀ c θ r, Φ c = some (θ, r) → c < s.cells.size ∧ (r < q → CellDepicts cx Φ r θ (s.read c))

/-- The cells whose forces failed stand for thunks that fail with the same error. -/
def Blames (Φ : Chart) (q : ℚ) (L : List Event) : Prop :=
  ∀ c e, .failed c e ∈ L → ∃ θ, Stands Φ q θ c ∧ Fails cx θ e

/-- A run whose failed forces are those of thunks that fail. -/
def Traced {α : Type} (Φ : Chart) (q : ℚ) (x : EvalM α) (s : Store) : Prop :=
  ∃ L, Trace cx x s L ∧ Blames cx Φ q L

/-- What a run below a bound does to a charted store: the chart grows below the bound and goes on to
cover the store, and the cells that are not below the bound are as they were. -/
structure Moves (q : ℚ) (Φ : Chart) (s : Store) (Φ' : Chart) (s' : Store) : Prop where
  charted : Charted cx Φ' q s'
  le : Φ ≤ Φ'
  fresh : ∀ {c θ r}, Φ' c = some (θ, r) → Φ c = none → r < q
  frame : ∀ {c θ r}, Φ c = some (θ, r) → q ≤ r → s'.read c = s.read c
  covers : Φ.Covers s → Φ'.Covers s'

end

section

variable {cx : Context} {Φ Φ' Φ'' : Chart} {q : ℚ} {s s' s'' : Store}

theorem CellDepicts.mono (hle : Φ ≤ Φ') {r : ℚ} {θ : Thunk} {cell : Cell}
    (h : CellDepicts cx Φ r θ cell) : CellDepicts cx Φ' r θ cell := by
  cases cell with
  | suspended work =>
    obtain ⟨ρ, depth, hθ, henv⟩ := h
    exact ⟨ρ, depth, hθ, henv.mono hle le_rfl⟩
  | forcing => exact h
  | forced u =>
    obtain ⟨v, hv, hu⟩ := h
    exact ⟨v, hv, hu.mono hle le_rfl⟩

theorem Blames.append {L L' : List Event} (h : Blames cx Φ q L) (h' : Blames cx Φ q L') :
    Blames cx Φ q (L ++ L') := by
  intro c e he
  rcases List.mem_append.1 he with he | he
  · exact h c e he
  · exact h' c e he

theorem Blames.mono {q' : ℚ} (hle : Φ ≤ Φ') (hq : q ≤ q') {L : List Event} (h : Blames cx Φ q L) :
    Blames cx Φ' q' L := by
  intro c e he
  obtain ⟨θ, hθ, hfails⟩ := h c e he
  exact ⟨θ, hθ.mono hle hq, hfails⟩

/-- A run without a failed force. -/
theorem Traced.of_trace {α : Type} {x : EvalM α} {L : List Event} (h : Trace cx x s L)
    (hL : ∀ d e, .failed d e ∉ L) : Traced cx Φ q x s :=
  ⟨L, h, fun d e he => absurd he (hL d e)⟩

theorem Traced.nothing {α : Type} {x : EvalM α} (h : Trace cx x s []) : Traced cx Φ q x s :=
  .of_trace h fun _ _ => List.not_mem_nil

/-- A run with the events of another one. -/
theorem Traced.imp {α β : Type} {x : EvalM α} {y : EvalM β} (h : Traced cx Φ q x s)
    (htrace : ∀ L, Trace cx x s L → Trace cx y s L) : Traced cx Φ q y s := by
  obtain ⟨L, hL, hblames⟩ := h
  exact ⟨L, htrace L hL, hblames⟩

/-- A run with the events of two others, the second one after the first. -/
theorem Traced.append {α β γ : Type} {x : EvalM α} {y : EvalM β} {z : EvalM γ}
    (h : Traced cx Φ q x s) (hle : Φ ≤ Φ') (h' : Traced cx Φ' q y s')
    (htrace : ∀ L L', Trace cx x s L → Trace cx y s' L' → Trace cx z s (L ++ L')) :
    Traced cx Φ' q z s := by
  obtain ⟨L, hL, hblames⟩ := h
  obtain ⟨L', hL', hblames'⟩ := h'
  exact ⟨L ++ L', htrace L L' hL hL', (hblames.mono hle le_rfl).append hblames'⟩

theorem Traced.bind {α β : Type} {x : EvalM α} {f : α → EvalM β} {a : α} (h : Traced cx Φ q x s)
    (hle : Φ ≤ Φ') (hx : x s = (.ok a, s')) (h' : Traced cx Φ' q (f a) s') :
    Traced cx Φ' q (x >>= f) s :=
  h.append hle h' fun _ _ => .bind hx

theorem Moves.refl (hs : Charted cx Φ q s) : Moves cx q Φ s Φ s where
  charted := hs
  le := Chart.le_refl Φ
  fresh h h' := by rw [h'] at h; cases h
  frame _ _ := rfl
  covers := id

theorem Moves.trans (h : Moves cx q Φ s Φ' s') (k : Moves cx q Φ' s' Φ'' s'') :
    Moves cx q Φ s Φ'' s'' where
  covers hcovers := k.covers (h.covers hcovers)
  charted := k.charted
  le := Chart.le_trans h.le k.le
  fresh {c θ r} hc hnone := by
    cases hc' : Φ' c with
    | none => exact k.fresh hc hc'
    | some e =>
      rw [k.le c e hc'] at hc
      cases hc
      exact h.fresh hc' hnone
  frame hc hr := by rw [k.frame (h.le _ _ hc) hr, h.frame hc hr]

/-- A new cell that suspends or holds a thunk. -/
theorem Charted.alloc (hs : Charted cx Φ q s) {θ : Thunk} {r : ℚ} {cell : Cell} (hr : r < q)
    (hcell : CellDepicts cx Φ r θ cell) :
    Moves cx q Φ s (Φ.put s.cells.size (θ, r)) (s.alloc cell).2 := by
  have hnew : Φ s.cells.size = none := by
    cases h : Φ s.cells.size with
    | none => rfl
    | some e => exact absurd (hs _ e.1 e.2 h).1 (Nat.lt_irrefl _)
  have hle := Chart.le_put hnew (θ, r)
  refine ⟨?_, hle, ?_, ?_, ?_⟩
  · intro c θ' r' hc
    by_cases h : c = s.cells.size
    · subst h
      rw [Chart.put_self] at hc
      cases hc
      rw [Store.size_alloc, Store.read_alloc_size]
      exact ⟨Nat.lt_succ_self _, fun _ => hcell.mono hle⟩
    · rw [Chart.put_of_ne Φ _ h] at hc
      obtain ⟨hlt, hd⟩ := hs c θ' r' hc
      rw [Store.size_alloc, Store.read_alloc_of_lt hlt]
      exact ⟨Nat.lt_succ_of_lt hlt, fun h => (hd h).mono hle⟩
  · intro c θ' r' hc hnone
    by_cases h : c = s.cells.size
    · subst h
      rw [Chart.put_self] at hc
      cases hc
      exact hr
    · rw [Chart.put_of_ne Φ _ h, hnone] at hc
      cases hc
  · intro c θ' r' hc _
    exact Store.read_alloc_of_lt (hs c θ' r' hc).1
  · intro hcovers c hc hnone
    rw [Store.size_alloc] at hc
    by_cases h : c = s.cells.size
    · rw [h, Chart.put_self] at hnone
      cases hnone
    · rw [Chart.put_of_ne Φ _ h] at hnone
      exact hcovers c (by omega) hnone

/-- The store in which a cell is being forced is charted below the rank of the cell. -/
theorem Charted.enter (hs : Charted cx Φ q s) {c : CellId} {θ : Thunk} {r : ℚ} (hr : r < q)
    (hc : Φ c = some (θ, r)) (cell : Cell) : Charted cx Φ r (s.write c cell) := by
  intro d θ' r' hd
  obtain ⟨hlt, hcell⟩ := hs d θ' r' hd
  rw [Store.size_write]
  refine ⟨hlt, fun hr' => ?_⟩
  have hne : d ≠ c := by
    rintro rfl
    rw [hc] at hd
    cases hd
    exact lt_irrefl _ hr'
  rw [Store.read_write c d cell s (hs c θ r hc).1, if_neg hne]
  exact hcell (lt_trans hr' hr)

/-- A run that forced a cell moves the store, once the cell has its content again. -/
theorem Moves.leave (hs : Charted cx Φ q s) {c : CellId} {θ : Thunk} {r : ℚ} (hr : r < q)
    (hc : Φ c = some (θ, r)) {cell cell' : Cell} (h : Moves cx r Φ (s.write c cell) Φ' s')
    (hcell : CellDepicts cx Φ' r θ cell') : Moves cx q Φ s Φ' (s'.write c cell') := by
  have hlt := (hs c θ r hc).1
  have hlt' := (h.charted c θ r (h.le _ _ hc)).1
  refine ⟨?_, h.le, fun hc' hnone => lt_trans (h.fresh hc' hnone) hr, ?_, fun hcovers d hd => ?_⟩
  · intro d θ' r' hd
    rw [Store.size_write, Store.read_write c d cell' s' hlt']
    refine ⟨(h.charted d θ' r' hd).1, fun hr' => ?_⟩
    by_cases hdc : d = c
    · subst hdc
      rw [h.le _ _ hc] at hd
      cases hd
      rw [if_pos rfl]
      exact hcell
    · rw [if_neg hdc]
      rcases lt_or_ge r' r with hlow | hhigh
      · exact (h.charted d θ' r' hd).2 hlow
      · cases hΦ : Φ d with
        | none => exact absurd (h.fresh hd hΦ) (not_lt.2 hhigh)
        | some e =>
          rw [h.le _ _ hΦ] at hd
          cases hd
          rw [h.frame hΦ hhigh, Store.read_write c d cell s hlt, if_neg hdc]
          exact ((hs d θ' r' hΦ).2 hr').mono h.le
  · intro d θ' r' hd hr'
    have hne : d ≠ c := by
      rintro rfl
      rw [hc] at hd
      cases hd
      exact absurd hr' (not_le.2 hr)
    rw [Store.read_write c d cell' s' hlt', if_neg hne, h.frame hd (le_trans (le_of_lt hr) hr'),
      Store.read_write c d cell s hlt, if_neg hne]
  · rw [Store.size_write] at hd
    exact h.covers (fun d hd => hcovers d (by rwa [Store.size_write] at hd)) d hd

/-- The events of a force that has ended are those inside it and its own. -/
theorem Traced.leave {n : Nat} (ev : Event) {c : CellId} {θ : Thunk} {r : ℚ} {work : Suspension}
    (h : Traced cx Φ r (Eval.evaluate cx n work.env work.term) (s.write c .forcing)) (hr : r < q)
    (hc : Φ c = some (θ, r))
    (htrace : ∀ L, Trace cx (Eval.evaluate cx n work.env work.term) (s.write c .forcing) L →
      Trace cx (Eval.force (Eval.evaluate cx n) c) s (L ++ [ev]))
    (hev : ∀ d e, ev = .failed d e → d = c ∧ Fails cx θ e) :
    Traced cx Φ q (Eval.force (Eval.evaluate cx n) c) s := by
  obtain ⟨L, hL, hblames⟩ := h
  refine ⟨L ++ [ev], htrace L hL, (hblames.mono (Chart.le_refl Φ) hr.le).append ?_⟩
  intro d e he
  obtain ⟨rfl, hfails⟩ := hev d e (List.mem_singleton.1 he).symm
  exact ⟨θ, ⟨r, hr, hc⟩, hfails⟩

end

end Stagecraft.Eval.ByName
