import Stagecraft.Pipeline.Build

/-!
# Programs with nothing to stage

Staging runs splices and takes bindings of code away. A term that has neither comes out as it is,
whatever its environment and however little fuel there is (`Residual.residualTerm_of_isRunTime`).
So a table of such definitions is its own residual program, and a build converts and emits the
definitions of that table themselves (`Pipeline.build?_of_isRunTime`).
-/

namespace Stagecraft.Staged

/-- Whether the code depth of a type is zero. -/
def Ty.isRunTime (table : Table) (ty : Ty) : Bool :=
  match Residual.codeDepth table ty with
  | .ok depth => depth == 0
  | .error _ => false

section

variable (table : Table)

namespace Term

mutual

/-- Whether a term has no splices outside quotes, no bindings of code and no holes. -/
def isRunTime : Term → Bool
  | .literal .. | .var .. | .command .. | .quote .. => true
  | .splice .. | .hole _ => false
  | .array _ _ es | .list _ es | .tuple _ es => areRunTime es
  | .compound _ fields => areFieldsRunTime fields
  | .ref _ e | .call _ _ e => isRunTime e
  | .lambda _ p b => !p.hasHole && isRunTime b
  | .apply _ f a => isRunTime f && isRunTime a
  | .cond _ c a b => isRunTime c && isRunTime a && isRunTime b
  | .letIn _ p i b => !p.hasHole && p.ty.isRunTime table && isRunTime i && isRunTime b
  | .test _ e p => !p.hasHole && isRunTime e

/-- Whether several terms have nothing to stage. -/
def areRunTime : List Term → Bool
  | [] => true
  | t :: ts => isRunTime t && areRunTime ts

/-- Whether the fields of a record have nothing to stage. -/
def areFieldsRunTime : List (String × Term) → Bool
  | [] => true
  | (_, t) :: rest => isRunTime t && areFieldsRunTime rest

end

end Term

/-- Whether a definition belongs to the residual program as it is. -/
def Definition.isRunTime : Definition → Bool
  | .function f => !f.has .static && !f.has .inlined && f.binder.ty.isRunTime table &&
      f.result.isRunTime table &&
      (f.has .builtin || !f.binder.hasHole && f.body.isRunTime table)
  | .resource _ | .alias _ => true

/-- Whether every definition of a table belongs to the residual program as it is. -/
def Table.isRunTime : Bool := table.definitions.all (Definition.isRunTime table)

end

end Stagecraft.Staged

namespace Stagecraft.Residual

open Staged (Ty Pattern Term Definition Table)
open Eval (Env EvalM Store)

/-! ## Staging -/

/-- From every store the computation gives the answer. -/
def ResidualM.Gives {α : Type} (x : ResidualM α) (a : α) : Prop := ∀ s, ∃ s', x s = (.ok a, s')

namespace ResidualM

variable {α β : Type}

theorem run_bind (x : ResidualM α) (f : α → ResidualM β) (s : Store) :
    (x >>= f) s =
      match x s with
      | (.ok a, s') => f a s'
      | (.error e, s') => (.error e, s') := by
  change (match x s with | (r, s') => ExceptT.bindCont f r s') = _
  rcases x s with ⟨e | a, s'⟩ <;> rfl

/-- Binding variables to themselves does not fail. -/
theorem exists_bindNeutral (vs : List Var) : ∀ env s, ∃ env' s',
    EvalM.bindNeutral env vs s = (.ok env', s') := by
  induction vs with
  | nil => exact fun env s => ⟨env, s, rfl⟩
  | cons v vs ih => exact fun env s => ih _ _

namespace Gives

theorem pure (a : α) : Gives (pure a) a := fun s => ⟨s, rfl⟩

theorem bind {x : ResidualM α} {f : α → ResidualM β} {a : α} {b : β} (hx : x.Gives a)
    (hf : (f a).Gives b) : (x >>= f).Gives b := by
  intro s
  obtain ⟨s', hs'⟩ := hx s
  rw [run_bind, hs']
  exact hf s'

theorem bindNeutral {f : Env → ResidualM β} {b : β} (hf : ∀ env, (f env).Gives b) (env : Env)
    (vs : List Var) : (ofEval (EvalM.bindNeutral env vs) >>= f).Gives b := by
  intro s
  obtain ⟨env', s', h⟩ := exists_bindNeutral vs env s
  rw [run_bind, ofEval, h]
  exact hf env' s'

theorem checkBinder {p : Pattern} (h : p.hasHole = false) : (checkBinder p).Gives () := by
  rw [Residual.checkBinder, h]
  exact .pure ()

/-- What has run-time types takes the run-time branch. -/
theorem codeDepth {table : Table} {ty : Ty} (h : ty.isRunTime table = true) :
    (ofExcept (codeDepth table ty)).Gives 0 := by
  unfold Ty.isRunTime at h
  split at h
  · next depth hdepth =>
    rw [hdepth, eq_of_beq h]
    exact .pure 0
  · cases h

end Gives

end ResidualM

open ResidualM (Gives)

section

variable (cx : Eval.Context) (fuel : Nat)

mutual

/-- A term without anything to stage is its own residual, whatever its environment. -/
theorem residualTerm_of_isRunTime : ∀ {t : Term}, t.isRunTime cx.definitions = true →
    ∀ env, (residualTerm cx fuel env t).Gives t
  | .literal .., _, _ | .var .., _, _ | .command .., _, _ | .quote .., _, _ => by
    rw [residualTerm]
    exact .pure _
  | .array _ _ es, h, env | .list _ es, h, env | .tuple _ es, h, env => by
    rw [residualTerm]
    exact (residualTerms_of_areRunTime es h env).bind (.pure _)
  | .compound _ fields, h, env => by
    rw [residualTerm]
    exact (residualFields_of_areRunTime fields h env).bind (.pure _)
  | .ref _ e, h, env | .call _ _ e, h, env => by
    rw [residualTerm]
    exact (residualTerm_of_isRunTime (t := e) h env).bind (.pure _)
  | .lambda _ p b, h, env => by
    rw [Term.isRunTime, Bool.and_eq_true, Bool.not_eq_true'] at h
    obtain ⟨hp, hb⟩ := h
    rw [residualTerm]
    refine (Gives.checkBinder hp).bind (.bindNeutral (fun inner => ?_) env _)
    exact (residualTerm_of_isRunTime hb inner).bind (.pure _)
  | .apply _ f a, h, env => by
    rw [Term.isRunTime, Bool.and_eq_true] at h
    rw [residualTerm]
    refine (residualTerm_of_isRunTime h.1 env).bind ?_
    exact (residualTerm_of_isRunTime h.2 env).bind (.pure _)
  | .cond _ c a b, h, env => by
    rw [Term.isRunTime, Bool.and_eq_true, Bool.and_eq_true] at h
    obtain ⟨⟨hc, ha⟩, hb⟩ := h
    rw [residualTerm]
    refine (residualTerm_of_isRunTime hc env).bind ?_
    refine (residualTerm_of_isRunTime ha env).bind ?_
    exact (residualTerm_of_isRunTime hb env).bind (.pure _)
  | .letIn _ p i b, h, env => by
    simp only [Term.isRunTime, Bool.and_eq_true, Bool.not_eq_true'] at h
    obtain ⟨⟨⟨hp, hty⟩, hi⟩, hb⟩ := h
    rw [residualTerm]
    refine (Gives.checkBinder hp).bind ?_
    refine (residualTerm_of_isRunTime hi env).bind ?_
    refine (Gives.codeDepth hty).bind ?_
    rw [if_pos rfl]
    refine .bindNeutral (fun inner => ?_) env _
    exact (residualTerm_of_isRunTime hb inner).bind (.pure _)
  | .test _ e p, h, env => by
    rw [Term.isRunTime, Bool.and_eq_true, Bool.not_eq_true'] at h
    obtain ⟨hp, he⟩ := h
    rw [residualTerm]
    refine (Gives.checkBinder hp).bind ?_
    exact (residualTerm_of_isRunTime he env).bind (.pure _)
  | .splice .., h, _ | .hole _, h, _ => nomatch h

theorem residualTerms_of_areRunTime : ∀ ts : List Term,
    Term.areRunTime cx.definitions ts = true → ∀ env, (residualTerms cx fuel env ts).Gives ts
  | [], _, _ => by
    rw [residualTerms]
    exact .pure _
  | t :: ts, h, env => by
    rw [Term.areRunTime, Bool.and_eq_true] at h
    rw [residualTerms]
    refine (residualTerm_of_isRunTime h.1 env).bind ?_
    exact (residualTerms_of_areRunTime ts h.2 env).bind (.pure _)

theorem residualFields_of_areRunTime : ∀ fields : List (String × Term),
    Term.areFieldsRunTime cx.definitions fields = true →
      ∀ env, (residualFields cx fuel env fields).Gives fields
  | [], _, _ => by
    rw [residualFields]
    exact .pure _
  | (key, t) :: rest, h, env => by
    rw [Term.areFieldsRunTime, Bool.and_eq_true] at h
    rw [residualFields]
    refine (residualTerm_of_isRunTime h.1 env).bind ?_
    exact (residualFields_of_areRunTime rest h.2 env).bind (.pure _)

end

/-- A definition without anything to stage is its own residual. -/
theorem residual?_of_isRunTime {d : Definition} (h : d.isRunTime cx.definitions = true) :
    residual? cx fuel d = .ok (some d) := by
  rcases d with _ | f | _
  · rfl
  · simp only [Definition.isRunTime, Bool.and_eq_true, Bool.not_eq_true', Bool.or_eq_true] at h
    obtain ⟨⟨⟨⟨hstatic, hinlined⟩, hbinder⟩, hresult⟩, hbody⟩ := h
    have hgives : (residualFunction? cx fuel f).Gives (some f) := by
      unfold residualFunction?
      rw [hstatic, hinlined]
      refine (Gives.codeDepth hbinder).bind ?_
      rw [if_neg (by simp)]
      refine (Gives.codeDepth hresult).bind ?_
      rw [if_neg (by simp)]
      by_cases hbuiltin : f.has .builtin = true
      · rw [if_pos hbuiltin]
        exact .pure _
      · rw [if_neg hbuiltin]
        obtain ⟨hp, hb⟩ := hbody.resolve_left hbuiltin
        refine Gives.bind (a := f.body) ?_ (.pure _)
        refine (Gives.checkBinder hp).bind (.bindNeutral (fun env => ?_) _ _)
        exact residualTerm_of_isRunTime cx fuel hb env
    obtain ⟨s', hs'⟩ := hgives .empty
    exact congrArg (fun r => r.1.map fun g => g.map Definition.function) hs'
  · rfl

end

end Stagecraft.Residual

namespace Stagecraft.Staged

theorem Table.put_of_notMem {d : Definition} {ds : List Definition}
    (h : d.name ∉ ds.map Definition.name) : put d ds = ds ++ [d] := by
  induction ds with
  | nil => rfl
  | cons e ds ih =>
    rw [List.map_cons, List.mem_cons, not_or] at h
    rw [put, if_neg (Ne.symm h.1), ih h.2, List.cons_append]

theorem Table.ext_definitions {t u : Table} (h : t.definitions = u.definitions) : t = u := by
  cases t
  cases u
  cases h
  rfl

/-- The table of definitions of distinct names has these definitions. -/
theorem Table.definitions_ofList {ds : List Definition} (h : (ds.map Definition.name).Nodup) :
    (ofList ds).definitions = ds := by
  have hfold : ∀ (ds : List Definition) (t : Table),
      ((t.definitions ++ ds).map Definition.name).Nodup →
        (ds.foldl insert t).definitions = t.definitions ++ ds := by
    intro ds
    induction ds with
    | nil => exact fun t _ => (List.append_nil _).symm
    | cons d ds ih =>
      intro t h
      have hd : d.name ∉ t.definitions.map Definition.name := by
        rw [List.map_append, List.map_cons] at h
        exact fun hmem => (List.nodup_append.1 h).2.2 _ hmem _ List.mem_cons_self rfl
      have hinsert : (t.insert d).definitions = t.definitions ++ [d] := put_of_notMem hd
      rw [List.foldl_cons, ih _ (by rwa [hinsert, List.append_assoc]), hinsert, List.append_assoc]
      rfl
  exact hfold ds empty h

theorem Table.ofList_definitions (table : Table) : ofList table.definitions = table :=
  ext_definitions (definitions_ofList table.nodup)

end Stagecraft.Staged

namespace Stagecraft.Pipeline

open Staged (Table)

/-! ## Builds -/

theorem residuals?_of_isRunTime (cx : Eval.Context) (fuel : Nat) {ds : List Staged.Definition}
    (h : ∀ d ∈ ds, d.isRunTime cx.definitions = true) :
    residuals? cx fuel ds = some (ds, []) := by
  induction ds with
  | nil => rfl
  | cons d ds ih =>
    obtain ⟨hd, hds⟩ := List.forall_mem_cons.1 h
    rw [residuals?, Residual.residual?_of_isRunTime cx fuel hd, ih hds]
    rfl

/-- A build of a table without anything to stage converts and emits its definitions. -/
theorem build?_of_isRunTime (fuel : Nat) (settings : Settings) (natives : Eval.Natives)
    {table : Table} (h : table.isRunTime = true) :
    build? fuel settings natives table = some {
      artifacts :=
        (artifacts settings.emitOptions (flatten table .empty table.definitions).1).1 ++
          [Emit.dispatcher settings.emitOptions (flatten table .empty table.definitions).2.1]
      closures := (flatten table .empty table.definitions).2.1
      failures := (flatten table .empty table.definitions).2.2 ++
        (artifacts settings.emitOptions (flatten table .empty table.definitions).1).2 } := by
  have hresiduals := residuals?_of_isRunTime ⟨table, natives, settings.unfoldLimit⟩ fuel
    (List.all_eq_true.1 h)
  rw [build?, hresiduals]
  simp only [Option.bind_eq_bind, Option.bind_some, Table.ofList_definitions, List.nil_append]
  rfl

end Stagecraft.Pipeline
