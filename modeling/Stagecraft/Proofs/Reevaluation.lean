import Stagecraft.Proofs.Adequacy

/-!
# Evaluation that remembers nothing

The evaluator with another way to look at cells: a suspended cell is evaluated at every look, and
what comes out is not kept. Everything else is the evaluator's own code. It gives the answers of
evaluation by name, with and without knowing that it ends, as the evaluator with marked cells does.
-/

namespace Stagecraft.Eval

open Staged (Ty Term)

/-- The value of a term in an environment, where no cell keeps a value. -/
def evaluateAnew (cx : Context) : Nat → Evaluation
  | 0 => fun _ _ => EvalM.outOfFuel
  | fuel + 1 => evaluateWith cx (evaluateAnew cx fuel) (forceAnew (evaluateAnew cx fuel))

/-- The form of a value at a type that is not refined, where no cell keeps a value. -/
def readShapeAnew (cx : Context) : Nat → Value → Ty → EvalM Term
  | 0 => fun _ _ => EvalM.outOfFuel
  | fuel + 1 =>
    shapeWith cx (evaluateAnew cx fuel) (forceAnew (evaluateAnew cx fuel)) (readShapeAnew cx fuel)

namespace ByName

section

variable {m : Mode} {cx : Context}

/-- A look that evaluates again gives the value of the thunk that the cell stands for: the run stays
below the same bound, since no cell is being forced meanwhile. -/
theorem Follows.forceAnew {eval : Eval.Evaluation} (heval : Follows m cx eval) :
    Looks m cx (forceAnew eval) := by
  intro Φ q θ c hc s hs
  obtain ⟨r, hr, hΦ⟩ := hc
  have hcell := (hs c θ r hΦ).2 hr
  cases hread : s.read c with
  | suspended work =>
    have hlook : Eval.forceAnew eval c s = eval work.env work.term s := by
      rw [Eval.forceAnew, hread]
    rw [hread] at hcell
    obtain ⟨ρ, depth, rfl, henv⟩ := hcell
    rw [hlook]
    rcases heval work.term (henv.mono (Chart.le_refl Φ) hr.le) s hs with
      hexc | ⟨o, Φ', hset, hmoves, hmatch, htraced⟩
    · exact .inl hexc
    · exact .inr ⟨o, Φ', hset, hmoves, hmatch, htraced.imp fun _ => .anew hread⟩
  | forcing =>
    rw [hread] at hcell
    exact hcell.elim
  | forced u =>
    have hlook : Eval.forceAnew eval c s = (.ok u, s) := by rw [Eval.forceAnew, hread]
    rw [hread] at hcell
    obtain ⟨v, hv, hu⟩ := hcell
    rw [hlook]
    rcases m.excuses_or_settles (fun n k hle h => force_stays hle h) hv with hexc | hset
    · exact .inl hexc
    · have hu' : Depicts Φ q v u := hu.mono (Chart.le_refl Φ) hr.le
      exact .inr ⟨.ok v, Φ, hset, .refl hs, .ok hu', .nothing (.seen hread)⟩

theorem evaluateAnew_byNeed : ∀ n, Follows .byNeed cx (evaluateAnew cx n)
  | 0 => fun _ _ _ _ _ _ _ _ _ => .inl rfl
  | n + 1 => (evaluateAnew_byNeed n).succ (evaluateAnew_byNeed n).forceAnew

theorem evaluateAnew_byName : ∀ n, Follows (.byName n) cx (evaluateAnew cx n)
  | 0 => fun _ _ _ _ _ _ _ _ _ => .inl rfl
  | n + 1 => fun _ _ _ _ _ t henv =>
    evaluateWith_tracks (evaluateAnew_byName n) (evaluateAnew_byName n).forceAnew henv t

theorem readShapeAnew_byNeed : ∀ n, Reads .byNeed cx (readShapeAnew cx n)
  | 0 => fun _ _ _ _ _ _ _ _ => .inl rfl
  | n + 1 =>
    (readShapeAnew_byNeed n).succ (evaluateAnew_byNeed n) (evaluateAnew_byNeed n).forceAnew

theorem readShapeAnew_byName : ∀ n, Reads (.byName n) cx (readShapeAnew cx n)
  | 0 => fun _ _ _ _ _ _ _ _ => .inl rfl
  | n + 1 => fun _ _ _ _ ty h =>
    shapeWith_tracks (evaluateAnew_byName n) (evaluateAnew_byName n).forceAnew
      (readShapeAnew_byName n) h ty

end

end ByName

end Stagecraft.Eval
