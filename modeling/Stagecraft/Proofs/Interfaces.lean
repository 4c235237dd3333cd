import Mathlib.Data.List.Perm.Basic
import Stagecraft.Proofs.Conversion
import Stagecraft.Proofs.RunTimePrograms

/-!
# What a definition needs to know of others

Types are expanded through the aliases of the table, and a call is resolved to the interface of a
function; the body of another function is only ever looked at by evaluation. So a function without
splices and without bindings of code is staged in the same way in all tables with the same
interfaces (`Residual.residual?_eq_of_sameInterfaces`), whatever the natives, the limits and the
fuel are.
-/

namespace Stagecraft.Staged

/-- What is known of a function where it is used. -/
structure Interface where
  marks : List Mark
  param : Ty
  result : Ty

/-- The interface of a function. -/
def Function.interface (f : Function) : Interface := ⟨f.marks, f.binder.ty, f.result⟩

/-- Two tables have the same names, the same type aliases and, for every function, the same
interface. Bodies of functions and resources may be different. -/
structure Table.SameInterfaces (T U : Table) : Prop where
  names : ∀ name,
    name ∈ T.definitions.map Definition.name ↔ name ∈ U.definitions.map Definition.name
  aliases : ∀ name, T.alias? name = U.alias? name
  functions : ∀ name, (T.function? name).map Function.interface =
    (U.function? name).map Function.interface

namespace Table.SameInterfaces

variable {T U : Table} (h : T.SameInterfaces U)

include h

theorem size_eq : T.size = U.size := by
  have hperm := (List.perm_ext_iff_of_nodup T.nodup U.nodup).2 h.names
  simpa [Table.size] using hperm.length_eq

theorem isNone_function? (name : DefName) :
    (T.function? name).isNone = (U.function? name).isNone := by
  have hname := congrArg Option.isNone (h.functions name)
  rwa [Option.isNone_map, Option.isNone_map] at hname

theorem codeDepth_eq : Residual.codeDepth T = Residual.codeDepth U := by
  have hwithin : ∀ fuel, Residual.depthWithin T fuel = Residual.depthWithin U fuel := by
    intro fuel
    induction fuel with
    | zero => rfl
    | succ fuel ih => simp only [Residual.depthWithin, h.aliases, ih]
  funext ty
  rw [Residual.codeDepth, Residual.codeDepth, hwithin, h.size_eq]

theorem tyOfStaged_eq : Flat.Ty.ofStaged T = Flat.Ty.ofStaged U := by
  have hwithin : ∀ fuel, Flat.tyWithin T fuel = Flat.tyWithin U fuel := by
    intro fuel
    induction fuel with
    | zero => rfl
    | succ fuel ih => simp only [Flat.tyWithin, h.aliases, ih]
  funext ty
  rw [Flat.Ty.ofStaged, Flat.Ty.ofStaged, hwithin, h.size_eq]

end Table.SameInterfaces

theorem Table.find?_insert (T : Table) (d : Definition) (name : DefName) :
    (T.insert d).find? name = if d.name = name then some d else T.find? name := by
  have hput : ∀ ds : List Definition, (put d ds).find? (fun e => e.name = name) =
      if d.name = name then some d else ds.find? fun e => e.name = name := by
    intro ds
    induction ds with
    | nil => by_cases h : d.name = name <;> simp [put, h]
    | cons e ds ih =>
      rw [put]
      split
      · next he => by_cases h : d.name = name <;> simp [he, h]
      · next he =>
        by_cases h : e.name = name
        · have hd : d.name ≠ name := fun hd => he (h.trans hd.symm)
          simp [h, hd]
        · simpa [h] using ih
  exact hput T.definitions

/-- A table and the same table with another body for one of its functions. -/
theorem Table.sameInterfaces_insert {T : Table} {f g : Function} (hf : .function f ∈ T.definitions)
    (hname : g.name = f.name) (hinterface : g.interface = f.interface) :
    T.SameInterfaces (T.insert (.function g)) := by
  have hfind : T.find? f.name = some (.function f) := Flat.find?_of_nodup T.nodup hf
  refine ⟨fun name => ?_, fun name => ?_, fun name => ?_⟩
  · have hmem : (Definition.function g).name ∈ T.definitions.map Definition.name :=
      List.mem_map.2 ⟨_, hf, hname.symm⟩
    rw [insert, map_name_put, if_pos hmem]
  · rw [alias?, alias?, find?_insert]
    by_cases h : (Definition.function g).name = name
    · obtain rfl : f.name = name := hname.symm.trans h
      rw [hfind, if_pos h]
    · rw [if_neg h]
  · rw [function?, function?, find?_insert]
    by_cases h : (Definition.function g).name = name
    · obtain rfl : f.name = name := hname.symm.trans h
      rw [hfind, if_pos h]
      exact congrArg some hinterface.symm
    · rw [if_neg h]

end Stagecraft.Staged

/-! ## Patterns -/

namespace Stagecraft.Flat

open Staged (Table)

variable {T U : Table}

mutual

/-- The conversion of a pattern reads the table for its types. -/
theorem Pattern.ofStaged_congr (h : Ty.ofStaged T = Ty.ofStaged U) : ∀ (p : Staged.Pattern)
    (S : Bindings), Pattern.ofStaged T S p = Pattern.ofStaged U S p
  | .int .., S | .range .., S | .var .., S | .wildcard _, S | .hole _, S => by
    rw [Pattern.ofStaged, Pattern.ofStaged, h]
  | .list _ ps, S | .tuple _ ps, S => by
    rw [Pattern.ofStaged, Pattern.ofStaged, h, Pattern.ofStagedAll_congr h ps]
  | .compound _ fields, S => by
    rw [Pattern.ofStaged, Pattern.ofStaged, h, Pattern.ofStagedFields_congr h fields]

theorem Pattern.ofStagedAll_congr (h : Ty.ofStaged T = Ty.ofStaged U) :
    ∀ (ps : List Staged.Pattern) (S : Bindings),
      Pattern.ofStagedAll T S ps = Pattern.ofStagedAll U S ps
  | [], S => by rw [Pattern.ofStagedAll, Pattern.ofStagedAll]
  | p :: ps, S => by
    rw [Pattern.ofStagedAll, Pattern.ofStagedAll, Pattern.ofStaged_congr h p]
    simp only [Pattern.ofStagedAll_congr h ps]

theorem Pattern.ofStagedFields_congr (h : Ty.ofStaged T = Ty.ofStaged U) :
    ∀ (fields : List (String × Staged.Pattern)) (S : Bindings),
      Pattern.ofStagedFields T S fields = Pattern.ofStagedFields U S fields
  | [], S => by rw [Pattern.ofStagedFields, Pattern.ofStagedFields]
  | (_, p) :: rest, S => by
    rw [Pattern.ofStagedFields, Pattern.ofStagedFields, Pattern.ofStaged_congr h p]
    simp only [Pattern.ofStagedFields_congr h rest]

end

end Stagecraft.Flat

/-! ## Terms that staging does not evaluate -/

namespace Stagecraft.Staged

/-- Whether a type is known to have code depth above zero. -/
def Ty.isCode (table : Table) (ty : Ty) : Bool :=
  match Residual.codeDepth table ty with
  | .ok depth => depth != 0
  | .error _ => false

section

variable (table : Table)

namespace Term

mutual

/-- Whether a term has neither splices outside quotes nor bindings of code. -/
def isUnstaged : Term → Bool
  | .literal .. | .var .. | .command .. | .quote .. | .hole _ => true
  | .splice .. => false
  | .array _ _ es | .list _ es | .tuple _ es => areUnstaged es
  | .compound _ fields => areFieldsUnstaged fields
  | .ref _ e | .call _ _ e | .test _ e _ => isUnstaged e
  | .lambda _ _ b => isUnstaged b
  | .apply _ f a => isUnstaged f && isUnstaged a
  | .cond _ c a b => isUnstaged c && isUnstaged a && isUnstaged b
  | .letIn _ p i b => !p.ty.isCode table && isUnstaged i && isUnstaged b

/-- Whether several terms have neither splices nor bindings of code. -/
def areUnstaged : List Term → Bool
  | [] => true
  | t :: ts => isUnstaged t && areUnstaged ts

/-- Whether the fields of a record have neither splices nor bindings of code. -/
def areFieldsUnstaged : List (String × Term) → Bool
  | [] => true
  | (_, t) :: rest => isUnstaged t && areFieldsUnstaged rest

end

end Term

end

end Stagecraft.Staged

namespace Stagecraft.Residual

open Staged (Ty Pattern Term Definition Table)
open Eval (Env EvalM Store)

namespace ResidualM

variable {α β : Type}

/-- Both computations have the same answer, or fail in the same way, from all stores; neither runs
out of fuel. -/
def Same (x y : ResidualM α) : Prop :=
  ∀ s s', (x s).1 = (y s').1 ∧ (x s).1 ≠ .error .outOfFuel

namespace Same

theorem pure (a : α) : Same (pure a) (pure a) := fun _ _ => ⟨rfl, nofun⟩

theorem fail (e : Error) : Same (fail e : ResidualM α) (fail e) := fun _ _ => ⟨rfl, nofun⟩

theorem bind {x y : ResidualM α} {f g : α → ResidualM β} (hx : x.Same y)
    (hf : ∀ a, (f a).Same (g a)) : (x >>= f).Same (y >>= g) := by
  intro s s'
  obtain ⟨heq, hfuel⟩ := hx s s'
  rw [run_bind, run_bind]
  revert heq hfuel
  generalize x s = r, y s' = r'
  obtain ⟨e | a, t⟩ := r
  · rintro heq hfuel
    obtain ⟨_, t'⟩ := r'
    cases heq
    exact ⟨rfl, fun h => hfuel (congrArg Except.error (Except.error.inj h))⟩
  · rintro heq -
    obtain ⟨_, t'⟩ := r'
    cases heq
    exact hf a t t'

/-- An answer that does not look at the store is the same for both. -/
theorem ofExcept {e : Except Error α} {f g : α → ResidualM β}
    (hf : ∀ a, e = .ok a → (f a).Same (g a)) : (ofExcept e >>= f).Same (ofExcept e >>= g) := by
  cases e with
  | error e => exact fun _ _ => ⟨rfl, nofun⟩
  | ok a => exact hf a rfl

/-- The cells that variables are bound to may be different. -/
theorem bindNeutral {f g : Env → ResidualM β} (hf : ∀ env env', (f env).Same (g env'))
    (env env' : Env) (vs : List Var) :
    (ofEval (EvalM.bindNeutral env vs) >>= f).Same (ofEval (EvalM.bindNeutral env' vs) >>= g) := by
  intro s s'
  obtain ⟨inner, t, h⟩ := exists_bindNeutral vs env s
  obtain ⟨inner', t', h'⟩ := exists_bindNeutral vs env' s'
  rw [run_bind, run_bind, ofEval, ofEval, h, h']
  exact hf inner inner' t t'

theorem ite {p : Prop} [Decidable p] {x y x' y' : ResidualM α} (hx : p → x.Same x')
    (hy : ¬p → y.Same y') : (if p then x else y).Same (if p then x' else y') := by
  by_cases h : p
  · rw [if_pos h, if_pos h]
    exact hx h
  · rw [if_neg h, if_neg h]
    exact hy h

theorem checkBinder (p : Pattern) : (checkBinder p).Same (Residual.checkBinder p) :=
  ite (fun _ => fail _) fun _ => pure _

end Same

end ResidualM

open ResidualM (Same)

section

variable {cx cx' : Eval.Context} (fuel fuel' : Nat)

mutual

/-- A term that is not evaluated is staged in the same way where types have the same code depths. -/
theorem same_residualTerm (hdepth : codeDepth cx.definitions = codeDepth cx'.definitions) :
    ∀ t : Term, t.isUnstaged cx.definitions = true → ∀ env env',
    (residualTerm cx fuel env t).Same (residualTerm cx' fuel' env' t)
  | .literal .., _, _, _ | .var .., _, _, _ | .command .., _, _, _ | .quote .., _, _, _ => by
    rw [residualTerm, residualTerm]
    exact .pure _
  | .hole _, _, _, _ => by
    rw [residualTerm, residualTerm]
    exact .fail _
  | .array _ _ es, h, env, env' | .list _ es, h, env, env' | .tuple _ es, h, env, env' => by
    rw [residualTerm, residualTerm]
    exact (same_residualTerms hdepth es h env env').bind fun _ => .pure _
  | .compound _ fields, h, env, env' => by
    rw [residualTerm, residualTerm]
    exact (same_residualFields hdepth fields h env env').bind fun _ => .pure _
  | .ref _ e, h, env, env' | .call _ _ e, h, env, env' => by
    rw [residualTerm, residualTerm]
    exact (same_residualTerm hdepth e h env env').bind fun _ => .pure _
  | .lambda _ p b, h, env, env' => by
    rw [residualTerm, residualTerm]
    refine (Same.checkBinder p).bind fun _ => .bindNeutral (fun inner inner' => ?_) env env' _
    exact (same_residualTerm hdepth b h inner inner').bind fun _ => .pure _
  | .apply _ f a, h, env, env' => by
    rw [Term.isUnstaged, Bool.and_eq_true] at h
    rw [residualTerm, residualTerm]
    exact (same_residualTerm hdepth f h.1 env env').bind fun _ =>
      (same_residualTerm hdepth a h.2 env env').bind fun _ => .pure _
  | .cond _ c a b, h, env, env' => by
    rw [Term.isUnstaged, Bool.and_eq_true, Bool.and_eq_true] at h
    rw [residualTerm, residualTerm]
    exact (same_residualTerm hdepth c h.1.1 env env').bind fun _ =>
      (same_residualTerm hdepth a h.1.2 env env').bind fun _ =>
        (same_residualTerm hdepth b h.2 env env').bind fun _ => .pure _
  | .letIn _ p i b, h, env, env' => by
    rw [Term.isUnstaged, Bool.and_eq_true, Bool.and_eq_true, Bool.not_eq_true'] at h
    obtain ⟨⟨hcode, hi⟩, hb⟩ := h
    rw [residualTerm, residualTerm, ← hdepth]
    refine (Same.checkBinder p).bind fun _ => ?_
    refine (same_residualTerm hdepth i hi env env').bind fun _ => ?_
    -- the binder has run-time type, or its type has no code depth and both fail
    refine .ofExcept fun depth hty => ?_
    rw [Ty.isCode, hty, bne_eq_false_iff_eq] at hcode
    rw [if_pos hcode, if_pos hcode]
    refine .bindNeutral (fun inner inner' => ?_) env env' _
    exact (same_residualTerm hdepth b hb inner inner').bind fun _ => .pure _
  | .test _ e p, h, env, env' => by
    rw [residualTerm, residualTerm]
    exact (Same.checkBinder p).bind fun _ =>
      (same_residualTerm hdepth e h env env').bind fun _ => .pure _
  | .splice .., h, _, _ => nomatch h

theorem same_residualTerms (hdepth : codeDepth cx.definitions = codeDepth cx'.definitions) :
    ∀ ts : List Term, Term.areUnstaged cx.definitions ts = true →
    ∀ env env', (residualTerms cx fuel env ts).Same (residualTerms cx' fuel' env' ts)
  | [], _, _, _ => by
    rw [residualTerms, residualTerms]
    exact .pure _
  | t :: ts, h, env, env' => by
    rw [Term.areUnstaged, Bool.and_eq_true] at h
    rw [residualTerms, residualTerms]
    exact (same_residualTerm hdepth t h.1 env env').bind fun _ =>
      (same_residualTerms hdepth ts h.2 env env').bind fun _ => .pure _

theorem same_residualFields (hdepth : codeDepth cx.definitions = codeDepth cx'.definitions) :
    ∀ fields : List (String × Term),
    Term.areFieldsUnstaged cx.definitions fields = true →
    ∀ env env', (residualFields cx fuel env fields).Same (residualFields cx' fuel' env' fields)
  | [], _, _, _ => by
    rw [residualFields, residualFields]
    exact .pure _
  | (_, t) :: rest, h, env, env' => by
    rw [Term.areFieldsUnstaged, Bool.and_eq_true] at h
    rw [residualFields, residualFields]
    exact (same_residualTerm hdepth t h.1 env env').bind fun _ =>
      (same_residualFields hdepth rest h.2 env env').bind fun _ => .pure _

end

/-- A function that is not evaluated is staged in the same way where types have the same code
depths. -/
theorem same_residualFunction? (hdepth : codeDepth cx.definitions = codeDepth cx'.definitions)
    {f : Staged.Function} (hf : f.body.isUnstaged cx.definitions = true) :
    (residualFunction? cx fuel f).Same (residualFunction? cx' fuel' f) := by
  unfold residualFunction?
  rw [← hdepth]
  refine .ite (fun _ => .pure none) fun _ => .ofExcept fun _ _ => ?_
  refine .ite (fun _ => .pure none) fun _ => .ofExcept fun _ _ => ?_
  refine .ite (fun _ => .pure none) fun _ => .ite (fun _ => .pure _) fun _ => ?_
  refine Same.bind ?_ fun _ => .pure _
  refine (Same.checkBinder f.binder).bind fun _ => .bindNeutral (fun inner inner' => ?_) _ _ _
  exact same_residualTerm fuel fuel' hdepth f.body hf inner inner'

end

/-- Staging a function without splices and bindings of code reads the interfaces of a table, and
neither natives nor limits. It never runs out of fuel. -/
theorem residual?_eq_of_sameInterfaces (cx cx' : Eval.Context) (fuel fuel' : Nat)
    (h : cx.definitions.SameInterfaces cx'.definitions)
    {f : Staged.Function} (hf : f.body.isUnstaged cx.definitions = true) :
    residual? cx fuel (.function f) = residual? cx' fuel' (.function f) ∧
      residual? cx fuel (.function f) ≠ .error .outOfFuel := by
  obtain ⟨heq, hfuel⟩ := same_residualFunction? fuel fuel' h.codeDepth_eq hf .empty .empty
  refine ⟨congrArg (fun r => r.map fun g => g.map Definition.function) heq, fun hrun => hfuel ?_⟩
  change (residualFunction? cx fuel f .empty).1.map (fun g => g.map Definition.function) = _ at hrun
  cases hanswer : (residualFunction? cx fuel f .empty).1 with
  | error e =>
    rw [hanswer] at hrun
    exact congrArg Except.error (Except.error.inj hrun)
  | ok g? =>
    rw [hanswer] at hrun
    cases hrun

end Stagecraft.Residual
