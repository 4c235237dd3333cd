import Stagecraft.Eval.Evaluate
import Stagecraft.Proofs.Conversion

/-!
# Values by need and values by value

The evaluator keeps the parts of a value in cells that it may never force; the flat language has
values without cells. A world says for some cells which flat value they stand for. `Shows` relates
a head form to a flat value through a world, and `Consistent` says that every cell of the world
holds, or suspends, what it stands for.

A neutral value waits for something unknown, so it may stand for any flat value: nothing that a
neutral value causes is ever compared. Cells outside the world are not constrained at all.

`Yields` is the logic of the evaluator's computations: whenever one goes through from a consistent
store, the store it leaves is consistent with a larger world.
-/

namespace Stagecraft.Eval

open Scope (levelOf?)
open Flat (Program Flattened Mirrors Bindings Capture bindCaptures)

mutual

/-- The flat value that a data term writes down. -/
def ofData? : Staged.Term → Option Flat.Value
  | .literal _ l => some (.literal l)
  | .array _ kind es => (ofDataAll? es).map (.array kind)
  | .list _ es => (ofDataAll? es).map .list
  | .compound _ fields => (ofDataFields? fields).map .compound
  | .ref _ e => (ofData? e).map .ref
  | .tuple _ es => (ofDataAll? es).map .tuple
  | .lambda .. | .apply .. | .cond .. | .letIn .. | .var .. | .call .. | .test .. | .command ..
  | .quote .. | .splice .. | .hole _ => none

/-- The flat values that data terms write down. -/
def ofDataAll? : List Staged.Term → Option (List Flat.Value)
  | [] => some []
  | t :: ts => do
    let w ← ofData? t
    return w :: (← ofDataAll? ts)

/-- The flat values of the fields of a record of data. -/
def ofDataFields? : List (String × Staged.Term) → Option (List (String × Flat.Value))
  | [] => some []
  | (key, t) :: rest => do
    let w ← ofData? t
    return (key, w) :: (← ofDataFields? rest)

end

/-! ## Worlds -/

/-- The flat values that some cells stand for. -/
def World := CellId → Option Flat.Value

namespace World

/-- A larger world says the same of the cells of a smaller one. -/
instance : LE World := ⟨fun Ω Ω' => ∀ c w, Ω c = some w → Ω' c = some w⟩

variable {Ω Ω' Ω'' : World}

theorem le_refl (Ω : World) : Ω ≤ Ω := fun _ _ h => h

theorem le_trans (h : Ω ≤ Ω') (k : Ω' ≤ Ω'') : Ω ≤ Ω'' := fun c w hc => k c w (h c w hc)

/-- A world with one more cell. -/
def put (Ω : World) (c : CellId) (w : Flat.Value) : World := fun d => if d = c then some w else Ω d

theorem put_self (Ω : World) (c : CellId) (w : Flat.Value) : Ω.put c w c = some w := if_pos rfl

theorem le_put {c : CellId} (h : Ω c = none) (w : Flat.Value) : Ω ≤ Ω.put c w := by
  intro d v hd
  have hne : d ≠ c := fun e => by rw [e, h] at hd; cases hd
  rw [put, if_neg hne, hd]

end World

namespace Env

/-- The environment with more cells bound, in order. -/
def bindAll (env : Env) (cs : List CellId) : Env := { env with cells := ⟨env.cells.items ++ cs⟩ }

theorem bindAll_nil (env : Env) : env.bindAll [] = env := by
  simp [bindAll]

theorem bindAll_bindAll (env : Env) (cs ds : List CellId) :
    (env.bindAll cs).bindAll ds = env.bindAll (cs ++ ds) := by
  simp [bindAll]

theorem get?_bindAll_of_some {env : Env} {level : Nat} {c : CellId} (h : env.get? level = some c)
    (cs : List CellId) : (env.bindAll cs).get? level = some c := by
  simp only [get?, Scope.get?, bindAll] at h ⊢
  rw [List.getElem?_append_left (List.getElem?_eq_some_iff.1 h).1, h]

theorem get?_bindAll_add (env : Env) (cs : List CellId) (i : Nat) :
    (env.bindAll cs).get? (env.cells.items.length + i) = cs[i]? := by
  simp only [get?, Scope.get?, bindAll]
  rw [List.getElem?_append_right (Nat.le_add_right _ _), Nat.add_sub_cancel_left]

end Env

/-- Cells that stand for flat values, one each. -/
def Cells (Ω : World) : List Flat.Value → List CellId → Prop :=
  List.Forall₂ fun w c => Ω c = some w

/-- Fields whose cells stand for those of a flat record. -/
def FieldCells (Ω : World) : List (String × Flat.Value) → List (String × CellId) → Prop :=
  List.Forall₂ fun e f => e.1 = f.1 ∧ Ω f.2 = some e.2

/-- In a scope, the innermost variable of a name stands for a flat value. -/
def InScope (Ω : World) (names : List String) (env : Env) (name : String) (w : Flat.Value) : Prop :=
  ∃ level c, levelOf? names name = some level ∧ env.get? level = some c ∧ Ω c = some w

/-- An environment by need and an environment by value that agree on every name in scope. The two
scopes may have the name at different levels. -/
structure EnvShows (Ω : World) (names : List String) (env : Env) (flatNames : List String)
    (ρ : List Flat.Value) : Prop where
  length : env.cells.items.length = names.length
  flatLength : ρ.length = flatNames.length
  var : ∀ {name level}, levelOf? flatNames name = some level →
    ∃ w, ρ[level]? = some w ∧ InScope Ω names env name w

section

variable (table : Staged.Table) (P : Program)

/-- A function value by need and a closure: the program has the flat form of the body at the tag,
and what was captured under a name is what the name stands for in the environment. -/
structure ClosureShows (Ω : World) (tag : Nat) (captured : List (String × Flat.Value))
    (p : Staged.Pattern) (b : Staged.Term) (env : Env) (names : List String) (p' : Flat.Pattern)
    (inner : Bindings) (captures : List Capture) (τ : Flat.Ty) (b' : Flat.Term) : Prop where
  length : env.cells.items.length = names.length
  bodyScoped : b.isScoped (names ++ p.binderNames) = true
  mirrors : Mirrors table .empty p p' inner
  flattened : Flattened table P (bindCaptures inner captures).2 b b'
  body : P.HasBody tag (.ofTuple [p', (bindCaptures inner captures).1]) τ b'
  captured : ∀ {name w}, Keyed.find? name captured = some w →
    name ∉ p.binderNames ∧ InScope Ω names env name w

/-- Head forms and the flat values they show. -/
inductive Shows (Ω : World) : Flat.Value → Value → Prop
  | neutral {w u} : u.isNeutral = true → Shows Ω w u
  | literal {l} : Shows Ω (.literal l) (.literal l)
  | array {kind ws cells} : Cells Ω ws cells → Shows Ω (.array kind ws) (.array kind cells)
  | list {ws cells} : Cells Ω ws cells → Shows Ω (.list ws) (.list cells)
  | compound {ws fields} : FieldCells Ω ws fields → Shows Ω (.compound ws) (.compound fields)
  | ref {w c} : Ω c = some w → Shows Ω (.ref w) (.ref c)
  | tuple {ws cells} : Cells Ω ws cells → Shows Ω (.tuple ws) (.tuple cells)
  | closure {tag captured p b env names p' inner captures τ b'} :
      ClosureShows table P Ω tag captured p b env names p' inner captures τ b' →
      Shows Ω (.closure tag captured) (.closure p b env)

/-- Why a suspended term stands for a flat value: its flat form evaluates to it in an environment
that agrees with the suspended one, or the term is data. -/
inductive Justified (Ω : World) (env : Env) (t : Staged.Term) (w : Flat.Value) : Prop
  | term {names S ρ t'} : EnvShows Ω names env (Bindings.names S) ρ → t.isScoped names = true →
      Flattened table P S t t' → Flat.Evaluates P ρ t' w → Justified Ω env t w
  | data : ofData? t = some w → Justified Ω env t w

/-- A cell that holds or suspends what it stands for. -/
def CellShows (Ω : World) : Cell → Flat.Value → Prop
  | .suspended work, w => Justified table P Ω work.env work.term w
  | .forcing, _ => True
  | .forced u, w => Shows table P Ω w u

/-- A store that agrees with a world. -/
def Consistent (Ω : World) (s : Store) : Prop :=
  ∀ ⦃c w⦄, Ω c = some w → c < s.cells.size ∧ CellShows table P Ω (s.read c) w

end

/-! ## Larger worlds -/

section

variable {table : Staged.Table} {P : Program} {Ω Ω' : World}

theorem Cells.mono (hle : Ω ≤ Ω') {ws : List Flat.Value} {cs : List CellId} (h : Cells Ω ws cs) :
    Cells Ω' ws cs :=
  h.imp fun _ _ hc => hle _ _ hc

theorem FieldCells.mono (hle : Ω ≤ Ω') {ws : List (String × Flat.Value)}
    {fs : List (String × CellId)} (h : FieldCells Ω ws fs) : FieldCells Ω' ws fs :=
  h.imp fun _ _ hf => ⟨hf.1, hle _ _ hf.2⟩

theorem InScope.mono (hle : Ω ≤ Ω') {names : List String} {env : Env} {name : String}
    {w : Flat.Value} (h : InScope Ω names env name w) : InScope Ω' names env name w := by
  obtain ⟨level, c, hlevel, hc, hw⟩ := h
  exact ⟨level, c, hlevel, hc, hle _ _ hw⟩

theorem EnvShows.mono (hle : Ω ≤ Ω') {names flatNames : List String} {env : Env}
    {ρ : List Flat.Value} (h : EnvShows Ω names env flatNames ρ) :
    EnvShows Ω' names env flatNames ρ where
  length := h.length
  flatLength := h.flatLength
  var hn := by
    obtain ⟨w, hw, hin⟩ := h.var hn
    exact ⟨w, hw, hin.mono hle⟩

theorem ClosureShows.mono (hle : Ω ≤ Ω') {tag captured p b env names p' inner captures τ b'}
    (h : ClosureShows table P Ω tag captured p b env names p' inner captures τ b') :
    ClosureShows table P Ω' tag captured p b env names p' inner captures τ b' :=
  { h with captured := fun hk => ⟨(h.captured hk).1, (h.captured hk).2.mono hle⟩ }

theorem Shows.mono (hle : Ω ≤ Ω') {w : Flat.Value} {u : Value} (h : Shows table P Ω w u) :
    Shows table P Ω' w u := by
  cases h with
  | neutral hu => exact .neutral hu
  | literal => exact .literal
  | array hc => exact .array (hc.mono hle)
  | list hc => exact .list (hc.mono hle)
  | compound hf => exact .compound (hf.mono hle)
  | ref hc => exact .ref (hle _ _ hc)
  | tuple hc => exact .tuple (hc.mono hle)
  | closure hc => exact .closure (hc.mono hle)

theorem Justified.mono (hle : Ω ≤ Ω') {env : Env} {t : Staged.Term} {w : Flat.Value}
    (h : Justified table P Ω env t w) : Justified table P Ω' env t w := by
  cases h with
  | term henv hs hf he => exact .term (henv.mono hle) hs hf he
  | data hd => exact .data hd

theorem CellShows.mono (hle : Ω ≤ Ω') {cell : Cell} {w : Flat.Value}
    (h : CellShows table P Ω cell w) : CellShows table P Ω' cell w := by
  cases cell with
  | suspended work => exact Justified.mono hle h
  | forcing => trivial
  | forced u => exact Shows.mono hle h

end

/-! ## Cells of a consistent store -/

namespace Store

theorem read_write (c d : CellId) (cell : Cell) (s : Store) (hc : c < s.cells.size) :
    (s.write c cell).read d = if d = c then cell else s.read d := by
  unfold read write
  by_cases h : d = c
  · subst h
    simp [hc]
  · rw [if_neg h, Array.getElem?_setIfInBounds_ne (Ne.symm h)]

theorem size_write (c : CellId) (cell : Cell) (s : Store) :
    (s.write c cell).cells.size = s.cells.size := by
  simp [write]

theorem read_alloc_of_lt {cell : Cell} {s : Store} {d : CellId} (hd : d < s.cells.size) :
    (s.alloc cell).2.read d = s.read d := by
  unfold read alloc
  rw [Array.getElem?_push_lt hd, Array.getElem?_eq_getElem hd]

theorem read_alloc_size (cell : Cell) (s : Store) :
    (s.alloc cell).2.read s.cells.size = cell := by
  unfold read alloc
  rw [Array.getElem?_push_size, Option.getD_some]

theorem size_alloc (cell : Cell) (s : Store) :
    (s.alloc cell).2.cells.size = s.cells.size + 1 := by
  simp [alloc]

end Store

section

variable {table : Staged.Table} {P : Program} {Ω : World} {s : Store}

/-- A store stays consistent when a cell is given a content that shows what it stands for. -/
theorem Consistent.write (hs : Consistent table P Ω s) {c : CellId} {cell : Cell}
    (hcell : ∀ w, Ω c = some w → CellShows table P Ω cell w) :
    Consistent table P Ω (s.write c cell) := by
  intro d w hd
  obtain ⟨hlt, hshows⟩ := hs hd
  refine ⟨by rw [Store.size_write]; exact hlt, ?_⟩
  by_cases h : d = c
  · subst h
    rw [Store.read_write d d cell s hlt, if_pos rfl]
    exact hcell w hd
  · by_cases hc : c < s.cells.size
    · rw [Store.read_write c d cell s hc, if_neg h]
      exact hshows
    · have hsame : s.write c cell = s := by
        unfold Store.write
        rw [Array.setIfInBounds, dif_neg hc]
      rw [hsame]
      exact hshows

/-- A new cell outside the world. -/
theorem Consistent.alloc (hs : Consistent table P Ω s) (cell : Cell) :
    Consistent table P Ω (s.alloc cell).2 := by
  intro d w hd
  obtain ⟨hlt, hshows⟩ := hs hd
  rw [Store.size_alloc, Store.read_alloc_of_lt hlt]
  exact ⟨Nat.lt_succ_of_lt hlt, hshows⟩

/-- A new cell that stands for a flat value. -/
theorem Consistent.alloc_put (hs : Consistent table P Ω s) {cell : Cell} {w : Flat.Value}
    (hcell : CellShows table P Ω cell w) :
    Ω ≤ Ω.put s.cells.size w ∧ Consistent table P (Ω.put s.cells.size w) (s.alloc cell).2 := by
  have hfresh : Ω s.cells.size = none := by
    cases h : Ω s.cells.size with
    | none => rfl
    | some v => exact absurd (hs h).1 (Nat.lt_irrefl _)
  have hle := World.le_put hfresh w
  refine ⟨hle, fun d v hd => ?_⟩
  by_cases h : d = s.cells.size
  · subst h
    rw [World.put_self] at hd
    cases hd
    rw [Store.size_alloc, Store.read_alloc_size]
    exact ⟨Nat.lt_succ_self _, hcell.mono hle⟩
  · rw [World.put, if_neg h] at hd
    obtain ⟨hlt, hshows⟩ := hs.alloc cell hd
    exact ⟨hlt, hshows.mono hle⟩

end

/-! ## Computations that keep a store consistent -/

theorem EvalM.run_bind {α β : Type} (x : EvalM α) (f : α → EvalM β) (s : Store) :
    (x >>= f) s =
      match x s with
      | (.ok a, s') => f a s'
      | (.error e, s') => (.error e, s') := by
  change (match x s with | (r, s') => ExceptT.bindCont f r s') = _
  rcases x s with ⟨e | a, s'⟩ <;> rfl

theorem EvalM.bind_ok {α β : Type} {x : EvalM α} {f : α → EvalM β} {s s'' : Store} {b : β} :
    (x >>= f) s = (.ok b, s'') ↔ ∃ a s', x s = (.ok a, s') ∧ f a s' = (.ok b, s'') := by
  rw [EvalM.run_bind]
  rcases x s with ⟨e | a, s'⟩
  · constructor
    · intro h
      cases h
    · rintro ⟨_, _, h, _⟩
      cases h
  · constructor
    · intro h
      exact ⟨a, s', rfl, h⟩
    · rintro ⟨_, _, h, h'⟩
      cases h
      exact h'

/-- Whenever a computation goes through from a store that agrees with a world, the result is right
in a larger world that the store it leaves agrees with. -/
def Yields {α : Type} (table : Staged.Table) (P : Program) (Ω : World) (x : EvalM α)
    (Q : World → α → Prop) : Prop :=
  ∀ ⦃s a s'⦄, Consistent table P Ω s → x s = (.ok a, s') →
    ∃ Ω', Ω ≤ Ω' ∧ Consistent table P Ω' s' ∧ Q Ω' a

namespace Yields

variable {table : Staged.Table} {P : Program} {Ω : World} {α β : Type}

theorem mono {x : EvalM α} {Q R : World → α → Prop} (h : Yields table P Ω x Q)
    (hQR : ∀ Ω' a, Ω ≤ Ω' → Q Ω' a → R Ω' a) : Yields table P Ω x R := by
  intro s a s' hs hx
  obtain ⟨Ω', hle, hs', hQ⟩ := h hs hx
  exact ⟨Ω', hle, hs', hQR Ω' a hle hQ⟩

theorem ret {a : α} {Q : World → α → Prop} (h : Q Ω a) : Yields table P Ω (pure a) Q := by
  intro s b s' hs hx
  cases hx
  exact ⟨Ω, World.le_refl Ω, hs, h⟩

theorem bind {x : EvalM α} {f : α → EvalM β} {Q : World → α → Prop} {R : World → β → Prop}
    (hx : Yields table P Ω x Q)
    (hf : ∀ a Ω', Ω ≤ Ω' → Q Ω' a → Yields table P Ω' (f a) R) : Yields table P Ω (x >>= f) R := by
  intro s b s'' hs h
  obtain ⟨a, s', ha, hb⟩ := EvalM.bind_ok.1 h
  obtain ⟨Ω', hle, hs', hQ⟩ := hx hs ha
  obtain ⟨Ω'', hle', hs'', hR⟩ := hf a Ω' hle hQ hs' hb
  exact ⟨Ω'', World.le_trans hle hle', hs'', hR⟩

theorem fail {e : Error} {Q : World → α → Prop} : Yields table P Ω (EvalM.fail e) Q :=
  fun _ _ _ _ h => nomatch h

theorem outOfFuel {Q : World → α → Prop} : Yields table P Ω EvalM.outOfFuel Q :=
  fun _ _ _ _ h => nomatch h

theorem ofExcept {e : Except Error α} :
    Yields table P Ω (EvalM.ofExcept e) fun _ a => e = .ok a := by
  cases e with
  | error _ => exact fail
  | ok a => exact ret rfl

/-- A new cell about which nothing is said. -/
theorem alloc {cell : Cell} : Yields table P Ω (EvalM.alloc cell) fun _ _ => True := by
  intro s c s' hs h
  cases h
  exact ⟨Ω, World.le_refl Ω, hs.alloc cell, trivial⟩

/-- A new cell that stands for a flat value. -/
theorem alloc_shows {cell : Cell} {w : Flat.Value} (h : CellShows table P Ω cell w) :
    Yields table P Ω (EvalM.alloc cell) fun Ω' c => Ω' c = some w := by
  intro s c s' hs hx
  cases hx
  obtain ⟨hle, hs'⟩ := hs.alloc_put h
  exact ⟨_, hle, hs', World.put_self ..⟩

theorem suspend {env : Env} {t : Staged.Term} {w : Flat.Value}
    (h : Justified table P Ω env t w) :
    Yields table P Ω (EvalM.suspend env t) fun Ω' c => Ω' c = some w :=
  alloc_shows h

theorem suspendAll {env : Env} : ∀ {Ω : World} {ts : List Staged.Term} {ws : List Flat.Value},
    List.Forall₂ (Justified table P Ω env) ts ws →
      Yields table P Ω (EvalM.suspendAll env ts) fun Ω' cs => Cells Ω' ws cs
  | Ω, [], [], .nil => ret .nil
  | Ω, t :: ts, w :: ws, .cons ht hts => by
    refine (suspend ht).bind fun c Ω' hle hc => ?_
    have hts' : List.Forall₂ (Justified table P Ω' env) ts ws := hts.imp fun _ _ h => h.mono hle
    refine (suspendAll hts').bind fun cs Ω'' hle' hcs => ret ?_
    exact .cons (hle' _ _ hc) hcs

theorem suspendFields {env : Env} : ∀ {Ω : World} {fields : List (String × Staged.Term)}
    {ws : List (String × Flat.Value)},
    List.Forall₂ (fun f e => f.1 = e.1 ∧ Justified table P Ω env f.2 e.2) fields ws →
      Yields table P Ω (EvalM.suspendFields env fields) fun Ω' cs => FieldCells Ω' ws cs
  | Ω, [], [], .nil => ret .nil
  | Ω, (key, t) :: rest, (key', w) :: ws, .cons ht hrest => by
    obtain ⟨rfl, ht⟩ := ht
    refine (suspend ht).bind fun c Ω' hle hc => ?_
    refine (suspendFields (hrest.imp fun _ _ h => ⟨h.1, h.2.mono hle⟩)).bind fun cs Ω'' hle' hcs =>
      ret ?_
    exact .cons ⟨rfl, hle' _ _ hc⟩ hcs

/-- Forcing a cell gives what it stands for, if evaluating a suspended term does. -/
theorem force {eval : Evaluation}
    (heval : ∀ {Ω env t w}, Justified table P Ω env t w →
      Yields table P Ω (eval env t) fun Ω' u => Shows table P Ω' w u)
    {c : CellId} {w : Flat.Value} (hc : Ω c = some w) :
    Yields table P Ω (force eval c) fun Ω' u => Shows table P Ω' w u := by
  intro s u s' hs h
  obtain ⟨-, hcell⟩ := hs hc
  unfold Eval.force Memo.force at h
  split at h
  · next hread =>
    rw [hread] at hcell
    cases h
    exact ⟨Ω, World.le_refl Ω, hs, hcell⟩
  · cases h
  · next work hread =>
    rw [hread] at hcell
    have hs₁ : Consistent table P Ω (Store.write c .forcing s) := hs.write fun _ _ => trivial
    split at h
    · next v s₂ hrun =>
      cases h
      obtain ⟨Ω', hle, hs₂, hshows⟩ := heval hcell hs₁ hrun
      refine ⟨Ω', hle, hs₂.write fun w' hw' => ?_, hshows⟩
      rw [hle _ _ hc] at hw'
      cases hw'
      exact hshows
    · cases h

end Yields

end Stagecraft.Eval
