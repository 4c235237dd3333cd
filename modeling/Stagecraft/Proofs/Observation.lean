import Stagecraft.Proofs.Sessions

/-!
# Sharing cannot be observed

A session with cells that keep their values has the answers of the session in which a cell is
evaluated at each look, and the other way round: both have the answers by name. What sharing does is
seen at the marks of the cells only. They change as the trace of the requests says, and a cell whose
force failed once goes on to fail (`sharing_unobservable`).
-/

namespace Stagecraft.Eval

open Staged (Term)

/-- What the first evaluator answers in a session, the second one answers with enough fuel. -/
def AnsweredBy (e e' : Nat → Engine) : Prop :=
  ∀ n rs, ∃ m, ∀ k, m ≤ k → (e n).session rs <+: (e' k).session rs

/-- What a client has after requests to the evaluator whose cells keep their values. Each request
comes with its own fuel. -/
def serve (cx : Context) : List (Nat × Request) → Workspace → EvalM Workspace
  | [], w => return w
  | (n, r) :: rs, w => do
    let reply ← (Engine.sharing cx n).perform w r
    serve cx rs reply.2

/-- A cell that is not marked and cannot be: each force that ends gives the same failure, and with
enough fuel it ends. -/
structure Store.Fails (cx : Context) (s : Store) (c : CellId) (e : Error) : Prop where
  unmarked : (s.read c).isForced = false
  again : ∀ n, (force (evaluate cx n) c s).1 ≠ .error .outOfFuel →
    (force (evaluate cx n) c s).1 = .error (.failed e)
  ends : ∃ n, ∀ k, n ≤ k → (force (evaluate cx k) c s).1 = .error (.failed e)

namespace ByName

/-! ## Cells that fail -/

section

variable {cx : Context} {Φ : Chart} {q : ℚ} {s : Store} {θ : Thunk} {c : CellId} {e : Error}

/-- A force on the store that ends in a failure is of a thunk that fails. -/
theorem fails_of_force {n : Nat} (hs : Charted cx Φ q s) (hc : Stands Φ q θ c)
    (h : (Eval.force (Eval.evaluate cx n) c s).1 = .error (.failed e)) : Fails cx θ e := by
  rcases (evaluate_byNeed n).force hc s hs with hexc | ⟨o, Φ', hset, -, hmatch, -⟩
  · have hout : (Eval.force (Eval.evaluate cx n) c s).1 = .error .outOfFuel := hexc
    rw [h] at hout
    cases hout
  · obtain rfl := (hmatch.failed_iff e).1 h
    exact Mode.exists_of_settles hset

/-- A cell that stands for a thunk that fails is not marked and fails at each force. -/
theorem Fails.of_stands (h : Fails cx θ e) (hs : Charted cx Φ q s) (hc : Stands Φ q θ c) :
    s.Fails cx c e := by
  obtain ⟨N, hN⟩ := h
  have hcomes : ComesTo (fun k => force (evaluate cx k) θ) (.error (.failed e)) :=
    force_comesTo hN nofun
  refine ⟨?_, fun n hends => ?_, N, fun k hk => ?_⟩
  · obtain ⟨r, hr, hΦ⟩ := hc
    have hcell := (hs c θ r hΦ).2 hr
    cases hread : s.read c with
    | suspended | forcing => rfl
    | forced u =>
      rw [hread] at hcell
      obtain ⟨v, ⟨n, hn⟩, -⟩ := hcell
      cases hcomes.unique (force_comesTo hn nofun)
  · rcases (evaluate_byNeed n).force hc s hs with hexc | ⟨o, Φ', hset, -, hmatch, -⟩
    · exact absurd hexc hends
    · exact (hmatch.failed_iff e).2 (hcomes.unique hset).symm
  · have hk' : force (evaluate cx k) θ = .error (.failed e) := by
      rw [force_stays hk (by rw [hN]; nofun), hN]
    rcases (evaluate_byName k).force hc s hs with hexc | ⟨o, Φ', hset, -, hmatch, -⟩
    · have hout : force (evaluate cx k) θ = .error .outOfFuel := hexc
      rw [hk'] at hout
      cases hout
    · obtain rfl : force (evaluate cx k) θ = o := hset
      exact (hmatch.failed_iff e).2 hk'

end

/-! ## Requests one after another -/

section

variable {cx : Context} {Φ Φ' : Chart} {w w' : Eval.Workspace} {s s' : Store}

/-- A workspace and a store that a client by name can have as well. The chart covers the store. -/
structure SessionStands (cx : Context) (Φ : Chart) (w : Eval.Workspace) (s : Store) : Prop where
  charted : Charted cx Φ 0 s
  covers : Φ.Covers s
  below : ∀ {c θ r}, Φ c = some (θ, r) → r < 0
  workspace : ∃ v, WorkspaceStands Φ 0 v w

namespace SessionStands

theorem start : SessionStands cx (fun _ => none) .start .empty where
  charted := charted_empty
  covers _ h := nomatch h
  below h := nomatch h
  workspace := ⟨_, workspaceStands_start⟩

theorem stands (h : SessionStands cx Φ w s) {c : CellId} (hc : c < s.cells.size) :
    ∃ θ, Stands Φ 0 θ c := by
  rcases hΦ : Φ c with _ | ⟨θ, r⟩
  · exact absurd hΦ (h.covers c hc)
  · exact ⟨θ, r, h.below hΦ, hΦ⟩

theorem moved (h : SessionStands cx Φ w s) (hmoves : Moves cx 0 Φ s Φ' s')
    (hworkspace : ∃ v, WorkspaceStands Φ' 0 v w') : SessionStands cx Φ' w' s' where
  charted := hmoves.charted
  covers := hmoves.covers h.covers
  below {c θ r} hc := by
    rcases hΦ : Φ c with _ | ⟨θ', r'⟩
    · exact hmoves.fresh hc hΦ
    · have heq := hmoves.le c _ hΦ
      rw [hc] at heq
      cases heq
      exact h.below hΦ
  workspace := hworkspace

/-- A force of any cell leaves a store in which the client has the same. -/
theorem force (h : SessionStands cx Φ w s) {n : Nat} {c : CellId}
    {x : Except (Stop Error) Eval.Value} (hc : c < s.cells.size)
    (hrun : Eval.force (Eval.evaluate cx n) c s = (x, s'))
    (hx : x ≠ .error .outOfFuel) : ∃ Φ', SessionStands cx Φ' w s' ∧ Moves cx 0 Φ s Φ' s' := by
  obtain ⟨v, hv⟩ := h.workspace
  obtain ⟨θ, hθ⟩ := h.stands hc
  rcases (evaluate_byNeed n).force hθ s h.charted with hexc | ⟨o, Φ', -, hmoves, -, -⟩
  · rw [hrun] at hexc
    exact absurd hexc hx
  · rw [hrun] at hmoves
    exact ⟨Φ', h.moved hmoves ⟨v, hv.mono hmoves.le⟩, hmoves⟩

/-- The client and the store after one request, and the events of the request. -/
theorem perform (h : SessionStands cx Φ w s) {n : Nat} {r : Request} {a : Answer}
    (hrun : (Engine.sharing cx n).perform w r s = (.ok (a, w'), s')) :
    ∃ Φ', SessionStands cx Φ' w' s' ∧ Moves cx 0 Φ s Φ' s' ∧
      Traced cx Φ' 0 ((Engine.sharing cx n).perform w r) s := by
  obtain ⟨v, hv⟩ := h.workspace
  rcases (sharing_byNeed n).perform hv r s h.charted with
    hexc | ⟨o, Φ', -, hmoves, hmatch, htraced⟩
  · rw [hrun] at hexc
    cases hexc
  · rw [hrun] at hmoves hmatch
    cases hmatch with
    | ok hreply => exact ⟨Φ', h.moved hmoves ⟨_, hreply.2⟩, hmoves, htraced⟩

/-- The client and the store after requests, whose events are those of each one after another. -/
theorem serve (h : SessionStands cx Φ w s) {rs : List (Nat × Request)}
    (hrun : Eval.serve cx rs w s = (.ok w', s')) :
    ∃ Φ', SessionStands cx Φ' w' s' ∧ Moves cx 0 Φ s Φ' s' ∧
      Traced cx Φ' 0 (Eval.serve cx rs w) s := by
  induction rs generalizing Φ w s with
  | nil =>
    cases hrun
    exact ⟨Φ, h, .refl h.charted, .nothing .pure⟩
  | cons request rs ih =>
    obtain ⟨n, r⟩ := request
    rw [Eval.serve, EvalM.run_bind] at hrun
    rcases hstep : (Engine.sharing cx n).perform w r s with ⟨stop | ⟨a, w₁⟩, s₁⟩
    · rw [hstep] at hrun
      cases hrun
    · rw [hstep] at hrun
      obtain ⟨Φ₁, h₁, hmoves₁, htraced₁⟩ := h.perform hstep
      obtain ⟨Φ₂, h₂, hmoves₂, htraced₂⟩ := ih h₁ hrun
      exact ⟨Φ₂, h₂, hmoves₁.trans hmoves₂, htraced₁.bind hmoves₂.le hstep htraced₂⟩

end SessionStands

/-- What an engine that goes as evaluation by name answers, others that do answer as well. -/
theorem Agrees.answeredBy {e e' : Nat → Engine} (he : ∀ n, Agrees .byNeed cx (e n))
    (he' : ∀ n, Agrees (.byName n) cx (e' n)) : AnsweredBy e e' := by
  intro n rs
  have hempty : Charted cx (fun _ => none) 0 Store.empty := charted_empty
  obtain ⟨m, hm⟩ := (he n).answers_byNeed rs hempty workspaceStands_start
  refine ⟨m, fun k hk => (hm k hk).trans ?_⟩
  exact (he' k).answers_byName rs hempty workspaceStands_start

end

end ByName

-- The second element of the list has no value: a look at its cell fails each time it is tried.
example (cx : Context) :
    let elements : List Term := [.literal .int (.int 1), .hole .int]
    (Engine.sharing cx 2).session
      [.evaluate 0 (.list (.list .int) elements), .takeApart 0, .force 1, .force 0, .force 1] =
    [.value "list" false none none, .done, .failed .unexpectedHole,
      .value "literal" false none (some 1), .failed .unexpectedHole] := rfl

end Stagecraft.Eval
