/-!
# Computations that fail

When a sequence of computations goes through. Proofs about the passes take them apart with these
lemmas, one step after another.
-/

namespace Stagecraft.Except

variable {ε α β : Type} {x : Except ε α} {b : β}

/-- A sequence goes through with what its second computation gives for the answer of the first. -/
theorem bind_ok {f : α → Except ε β} : x >>= f = .ok b ↔ ∃ a, x = .ok a ∧ f a = .ok b := by
  cases x with
  | error e => simp only [bind, Except.bind, reduceCtorEq, false_and, exists_false]
  | ok a => simp only [bind, Except.bind, Except.ok.injEq, exists_eq_left']

/-- What a computation rebuilds around its answer. -/
theorem bind_pure_ok {f : α → β} :
    (x >>= fun a => pure (f a)) = .ok b ↔ ∃ a, x = .ok a ∧ b = f a := by
  rw [bind_ok]
  simp only [pure, Except.pure, Except.ok.injEq, eq_comm]

end Stagecraft.Except
