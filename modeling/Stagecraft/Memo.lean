/-!
# Compute-once cells

A cell holds a suspended computation or its result. Forcing runs the suspension and keeps a
successful result; a computation that fails is put back, so that a later force may try it again.
While the computation runs the cell is marked, and forcing it again from inside is reported as a
cycle.
-/

namespace Stagecraft

/-- The state of a compute-once cell. -/
inductive Memo (σ : Type u) (τ : Type v) where
  | suspended (work : σ)
  | forcing
  | forced (value : τ)
deriving DecidableEq, Inhabited

namespace Memo

variable {σ τ : Type}

/-- The kept result, without forcing. -/
def value? : Memo σ τ → Option τ
  | .forced v => some v
  | .suspended _ | .forcing => none

/-- Whether a result is kept. -/
def isForced (m : Memo σ τ) : Bool := m.value?.isSome

/-- The state of a cell as text: its result, or what keeps it from having one. -/
def text (render : τ → String) : Memo σ τ → String
  | .suspended _ => "<suspended>"
  | .forcing => "<forcing>"
  | .forced v => render v

/-- Force the cell that `read` and `write` reach inside a state. The computation runs at most once
with success; it sees the state with the cell marked, and may change anything else in it. -/
def force {S ε : Type} (read : S → Memo σ τ) (write : Memo σ τ → S → S)
    (compute : σ → ExceptT ε (StateM S) τ) (cycle : ε) : ExceptT ε (StateM S) τ := fun s =>
  match read s with
  | .forced v => (.ok v, s)
  | .forcing => (.error cycle, s)
  | .suspended work =>
    match compute work (write .forcing s) with
    | (.ok v, s') => (.ok v, write (.forced v) s')
    | (.error e, s') => (.error e, write (.suspended work) s')

end Memo

end Stagecraft
