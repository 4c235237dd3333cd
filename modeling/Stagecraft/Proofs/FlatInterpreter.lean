import Stagecraft.Proofs.FlatSemantics

/-!
# An interpreter of the flat language

The reference semantics as a function: structural in the term, with fuel for the definitions called
inside each other. Whatever it answers, the semantics derives (`runs_of_run?`).
-/

namespace Stagecraft.Flat

section

variable (P : Program) (run : DefName → Value → Option Value)

mutual

/-- The value of a term, with `run` for the definitions it calls. -/
def evaluateWith? (ρ : List Value) : Term → Option Value
  | .literal _ l => some (.literal l)
  | .array _ kind es => (evaluateAllWith? ρ es).map (.array kind)
  | .list _ es => (evaluateAllWith? ρ es).map .list
  | .compound _ fields => (evaluateFieldsWith? ρ fields).map .compound
  | .ref _ e => (evaluateWith? ρ e).map .ref
  | .tuple _ es => (evaluateAllWith? ρ es).map .tuple
  | .closure _ tag captures => (captured? ρ captures).map (.closure tag)
  | .branch _ c a thenName elseName => do
    match ← evaluateWith? ρ c with
    | .literal (.bool b) => run (if b then thenName else elseName) (← evaluateWith? ρ a)
    | _ => none
  | .letIn _ p i b => do
    let ws ← p.bind? (← evaluateWith? ρ i)
    evaluateWith? (ρ ++ ws) b
  | .var _ v => ρ[v.level]?
  | .call _ name a => do
    let w ← evaluateWith? ρ a
    if name = dispatcher then
      match w with
      | .tuple [w, .closure tag cs] => run (← P.closures.bodies[tag]?) (.tuple [w, .compound cs])
      | _ => none
    else run name w
  | .test _ e p => do
    let b ← p.matches? (← evaluateWith? ρ e)
    return .literal (.bool b)
  | .command ty _ => ty.blank?

/-- The values of several terms. -/
def evaluateAllWith? (ρ : List Value) : List Term → Option (List Value)
  | [] => some []
  | t :: ts => do
    let w ← evaluateWith? ρ t
    return w :: (← evaluateAllWith? ρ ts)

/-- The values of the fields of a record. -/
def evaluateFieldsWith? (ρ : List Value) : List (String × Term) → Option (List (String × Value))
  | [] => some []
  | (key, t) :: rest => do
    let w ← evaluateWith? ρ t
    return (key, w) :: (← evaluateFieldsWith? ρ rest)

end

end

/-- What the definition of a name gives on a value, where at most `fuel` definitions are called
inside each other. -/
def run? (P : Program) : Nat → DefName → Value → Option Value
  | 0, _, _ => none
  | fuel + 1, name, w =>
    match P.function? name with
    | some f => do evaluateWith? P (run? P fuel) (← f.binder.bind? w) f.body
    | none => do native? (← P.native? name) w

section

variable {P : Program} {run : DefName → Value → Option Value}

mutual

/-- What the interpreter answers on a term is its value. -/
theorem evaluates_of_evaluateWith? (hrun : ∀ {name w r}, run name w = some r → Runs P name w r) :
    ∀ {t : Term} {ρ : List Value} {w : Value}, evaluateWith? P run ρ t = some w → Evaluates P ρ t w
  | .literal .., ρ, w, h => by
    cases h
    exact .literal
  | .array .., ρ, w, h => by
    obtain ⟨ws, hws, rfl⟩ := Option.map_eq_some_iff.1 h
    exact .array (evaluatesAll_of_evaluateAllWith? hrun hws)
  | .list .., ρ, w, h => by
    obtain ⟨ws, hws, rfl⟩ := Option.map_eq_some_iff.1 h
    exact .list (evaluatesAll_of_evaluateAllWith? hrun hws)
  | .compound .., ρ, w, h => by
    obtain ⟨ws, hws, rfl⟩ := Option.map_eq_some_iff.1 h
    exact .compound (evaluatesFields_of_evaluateFieldsWith? hrun hws)
  | .ref .., ρ, w, h => by
    obtain ⟨w, hw, rfl⟩ := Option.map_eq_some_iff.1 h
    exact .ref (evaluates_of_evaluateWith? hrun hw)
  | .tuple .., ρ, w, h => by
    obtain ⟨ws, hws, rfl⟩ := Option.map_eq_some_iff.1 h
    exact .tuple (evaluatesAll_of_evaluateAllWith? hrun hws)
  | .closure .., ρ, w, h => by
    obtain ⟨cs, hcs, rfl⟩ := Option.map_eq_some_iff.1 h
    exact .closure hcs
  | .branch .., ρ, w, h => by
    simp only [evaluateWith?, Option.bind_eq_bind, Option.bind_eq_some_iff] at h
    obtain ⟨c, hc, h⟩ := h
    split at h
    · obtain ⟨a, ha, hr⟩ := Option.bind_eq_some_iff.1 h
      exact .branch (evaluates_of_evaluateWith? hrun hc) (evaluates_of_evaluateWith? hrun ha)
        (hrun hr)
    · cases h
  | .letIn .., ρ, w, h => by
    simp only [evaluateWith?, Option.bind_eq_bind, Option.bind_eq_some_iff] at h
    obtain ⟨i, hi, ws, hws, hb⟩ := h
    exact .letIn (evaluates_of_evaluateWith? hrun hi) hws (evaluates_of_evaluateWith? hrun hb)
  | .var .., ρ, w, h => .var h
  | .call _ name _, ρ, w, h => by
    simp only [evaluateWith?, Option.bind_eq_bind, Option.bind_eq_some_iff] at h
    obtain ⟨a, ha, h⟩ := h
    split at h
    · next hname =>
      subst hname
      split at h
      · obtain ⟨body, hbody, hr⟩ := Option.bind_eq_some_iff.1 h
        exact .dispatch (evaluates_of_evaluateWith? hrun ha) hbody (hrun hr)
      · cases h
    · next hname => exact .call hname (evaluates_of_evaluateWith? hrun ha) (hrun h)
  | .test .., ρ, w, h => by
    simp only [evaluateWith?, Option.bind_eq_bind, Option.bind_eq_some_iff, Option.pure_def,
      Option.some.injEq] at h
    obtain ⟨e, he, b, hb, rfl⟩ := h
    exact .test (evaluates_of_evaluateWith? hrun he) hb
  | .command .., ρ, w, h => .command h

theorem evaluatesAll_of_evaluateAllWith?
    (hrun : ∀ {name w r}, run name w = some r → Runs P name w r) :
    ∀ {ts : List Term} {ρ ws : List Value}, evaluateAllWith? P run ρ ts = some ws →
      EvaluatesAll P ρ ts ws
  | [], ρ, ws, h => by
    cases h
    exact .nil
  | t :: ts, ρ, ws, h => by
    simp only [evaluateAllWith?, Option.bind_eq_bind, Option.bind_eq_some_iff, Option.pure_def,
      Option.some.injEq] at h
    obtain ⟨w, hw, ws', hws, rfl⟩ := h
    exact .cons (evaluates_of_evaluateWith? hrun hw) (evaluatesAll_of_evaluateAllWith? hrun hws)

theorem evaluatesFields_of_evaluateFieldsWith?
    (hrun : ∀ {name w r}, run name w = some r → Runs P name w r) :
    ∀ {fields : List (String × Term)} {ρ : List Value} {ws : List (String × Value)},
      evaluateFieldsWith? P run ρ fields = some ws → EvaluatesFields P ρ fields ws
  | [], ρ, ws, h => by
    cases h
    exact .nil
  | (key, t) :: rest, ρ, ws, h => by
    simp only [evaluateFieldsWith?, Option.bind_eq_bind, Option.bind_eq_some_iff, Option.pure_def,
      Option.some.injEq] at h
    obtain ⟨w, hw, ws', hws, rfl⟩ := h
    exact .cons (evaluates_of_evaluateWith? hrun hw)
      (evaluatesFields_of_evaluateFieldsWith? hrun hws)

end

end

/-- What the interpreter answers on a definition is what the definition gives. -/
theorem runs_of_run? {P : Program} : ∀ {fuel : Nat} {name : DefName} {w r : Value},
    run? P fuel name w = some r → Runs P name w r
  | fuel + 1, name, w, r, h => by
    unfold run? at h
    split at h
    · next f hf =>
      obtain ⟨ws, hws, hr⟩ := Option.bind_eq_some_iff.1 h
      exact .function hf hws (evaluates_of_evaluateWith? runs_of_run? hr)
    · obtain ⟨n, hn, hr⟩ := Option.bind_eq_some_iff.1 h
      exact .builtin hn hr

end Stagecraft.Flat
