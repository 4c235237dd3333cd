import Stagecraft.Proofs.FixedPoints
import Stagecraft.Proofs.Staging

/-!
# Staging twice

Staging a residual definition again gives it back (`residual_residual`), if its splices stay as
they are, its binders have no holes, and its lets of code take nothing apart. What staging put in
place of a splice is what a value was read back to (`leaves_of_readBackWith`); the splices in it are
normal forms, which normalize to themselves where their variables stand for themselves.

Two deliberate mechanisms make residuals that are staged further: where the unfolding limit stopped
a call in a splice, the second run starts to count anew, and where a refined type put a literal in
place of a stuck value, a test of the value does not wait for the literal.
-/

namespace Stagecraft

/-- Places that no occurrence can mean: the variable in each has the level of the next one. -/
def Var.hidden (level count : Nat) : List Var := (List.range count).map fun i => ⟨"", level + i + 1⟩

namespace Eval.ByName.Standing

/-- Further places, with whatever is in them. -/
def hide (σ : Standing) (θs : List Thunk) : Standing where
  vars := σ.vars ++ Var.hidden σ.vars.length θs.length
  thunks := σ.thunks ++ θs
  length_eq := by
    simp only [List.length_append, σ.length_eq, Var.hidden, List.length_map, List.length_range]
  stands := by
    intro x hx
    by_cases hlt : x.level < σ.vars.length
    · rw [List.getElem?_append_left hlt] at hx
      rw [List.getElem?_append_left (σ.length_eq ▸ hlt)]
      exact σ.stands x hx
    · rw [List.getElem?_append_right (Nat.not_lt.1 hlt), Var.hidden, List.getElem?_map,
        Option.map_eq_some_iff] at hx
      obtain ⟨i, hi, hx⟩ := hx
      obtain ⟨hlt, hi⟩ := List.getElem?_eq_some_iff.1 hi
      have hplace : x.level - σ.vars.length = i := (List.getElem_range hlt).symm.trans hi
      have hlevel := congrArg Var.level hx
      dsimp only at hlevel
      omega

end Eval.ByName.Standing

end Stagecraft

namespace Stagecraft.Staged

open Eval.ByName (isStructured)
open Residual (codeDepth)

namespace Term

section

variable (cx : Eval.Context)

mutual

/-- Whether there is nothing in a term that staging would change: outside quotes, a splice stays as
it is where the variables in scope stand for themselves, a binder has no hole and a type with a code
depth, and a let of code takes nothing apart. No splice mentions a variable that is bound to
code. -/
def isResidual (scope : List Var) : Term → Bool
  | .literal .. | .var .. | .command .. | .quote .. | .hole _ => true
  | .array _ _ es | .list _ es | .tuple _ es => areResidual scope es
  | .compound _ fields => areFieldsResidual scope fields
  | .ref _ e | .call _ _ e => isResidual scope e
  | .lambda _ p b => !p.hasHole && isResidual (scope ++ p.binders) b
  | .apply _ f a => isResidual scope f && isResidual scope a
  | .cond _ c a b => isResidual scope c && isResidual scope a && isResidual scope b
  | .letIn _ p i b =>
    !p.hasHole && isResidual scope i &&
      match codeDepth cx.definitions p.ty with
      | .ok 0 => isResidual (scope ++ p.binders) b
      | .ok (_ + 1) =>
        !(isStructured p && !p.binders.isEmpty) &&
          isResidual (scope ++ Var.hidden scope.length p.binders.length) b
      | .error _ => false
  | .test _ e p => !p.hasHole && isResidual scope e
  | .splice ty e => (Term.splice ty e).everywhere cx.keeps && (Term.splice ty e).isLevelled scope

/-- Whether there is nothing in several terms that staging would change. -/
def areResidual (scope : List Var) : List Term → Bool
  | [] => true
  | e :: es => isResidual scope e && areResidual scope es

/-- Whether there is nothing in the fields of a record that staging would change. -/
def areFieldsResidual (scope : List Var) : List (String × Term) → Bool
  | [] => true
  | (_, e) :: rest => isResidual scope e && areFieldsResidual scope rest

end

end

end Term

/-- Whether there is nothing in a definition that staging would change. -/
def Definition.isResidual (cx : Eval.Context) : Definition → Bool
  | .function f => f.has .builtin || f.body.isResidual cx f.binder.binders
  | .resource _ | .alias _ => true

end Stagecraft.Staged

namespace Stagecraft.Residual

open Staged (Ty Pattern Term Definition)
open Eval (Context)
open Eval.ByName

/-! ## What was read back is left as it is -/

section

variable {cx : Context} {k : Nat} {σ : Standing}

/-- A splice that was read back normalizes to itself. -/
theorem normalizes_splice {v : Value} {ty ty' : Ty} {e : Term}
    (h : readBackWith (readShape cx k) v ty = .ok (.splice ty' e)) (hv : v.Waits cx)
    (hkeeps : (Term.splice ty' e).everywhere cx.keeps = true)
    (hlevelled : (Term.splice ty' e).isLevelled σ.vars = true) :
    Normalizes cx σ.thunks (.splice ty' e) (.splice ty' e) := by
  obtain ⟨hreads, hty⟩ :=
    readBackWith_quotes (quotes_of_readShape k) h
  have hnormal : Normal cx false σ v (.splice ty' e) := {
    reads := hreads
    waits := hv
    levelled := hlevelled
    keeps := by rwa [everywhere_keepsAt_false] }
  have heval : Evals cx σ (.splice ty' e) :=
    evaluates_reflect _ (Nat.lt_succ_self _) hnormal
  have hback := readBackWith_again (readShape_again k) hnormal h
  rw [← hty] at hback
  exact ComesTo.bind heval hback

/-- A form that was read back, if it is no splice, is left as it is. -/
def LeavesForms (cx : Context) (k : Nat) : Prop :=
  ∀ ⦃v s ty ty'⦄ ⦃σ : Standing⦄, readShape cx k v ty = .ok s → v.Waits cx →
    (∀ ty'' e, s ≠ .splice ty'' e) → (s.withTy ty').isResidual cx σ.vars = true →
      Leaves cx σ.thunks (s.withTy ty') (s.withTy ty')

section

variable (hk : LeavesForms cx k)

include hk

theorem leaves_of_readBackWith {v : Value} {ty : Ty} {t : Term}
    (h : readBackWith (readShape cx k) v ty = .ok t) (hv : v.Waits cx)
    (ht : t.isResidual cx σ.vars = true) : Leaves cx σ.thunks t t := by
  rcases readBackWith_ok h with ⟨l, -, rfl⟩ | ⟨s, -, hs, rfl⟩
  · exact .literal
  · cases s with
    | splice ty' e =>
      rw [Term.withTy, Term.isResidual, Bool.and_eq_true] at ht
      exact .splice (normalizes_splice h hv ht.1 ht.2)
    | _ => exact hk hs hv (by rintro _ _ ⟨⟩) ht

theorem leaves_of_readThunk {θ : Thunk} {ty : Ty} {t : Term}
    (h : readThunk (evaluate cx k) (readShape cx k) θ ty = .ok t) (hθ : Thunk.Waits cx θ)
    (ht : t.isResidual cx σ.vars = true) : Leaves cx σ.thunks t t := by
  obtain ⟨u, hu, h⟩ := Except.bind_ok.1 h
  have hwaits : u.Waits cx := force_waits (evaluate_waits k) θ hθ u hu
  exact leaves_of_readBackWith hk h hwaits ht

theorem leavesAll_of_readThunks {ty : Ty} : ∀ {θs : List Thunk} {ts : List Term},
    readThunks (evaluate cx k) (readShape cx k) ty θs = .ok ts → AllWait cx θs →
      Term.areResidual cx σ.vars ts = true → LeavesAll cx σ.thunks ts ts
  | [], _, h, _, _ => by
    cases h
    exact .nil
  | θ :: θs, ts, h, hθs, hts => by
    rw [readThunks] at h
    obtain ⟨t, hfirst, h⟩ := Except.bind_ok.1 h
    obtain ⟨rest, hrest, heq⟩ := Except.bind_ok.1 h
    cases heq
    rw [Term.areResidual, Bool.and_eq_true] at hts
    obtain ⟨hθ, hθs⟩ := List.forall_mem_cons.1 hθs
    exact .cons (leaves_of_readThunk hk hfirst hθ hts.1) (leavesAll_of_readThunks hrest hθs hts.2)

theorem leavesAll_of_readTuple : ∀ {θs : List Thunk} {tys : List Ty} {ts : List Term},
    readTuple (evaluate cx k) (readShape cx k) θs tys = .ok ts → AllWait cx θs →
      Term.areResidual cx σ.vars ts = true → LeavesAll cx σ.thunks ts ts
  | [], _, _, h, _, _ => by
    cases h
    exact .nil
  | _ :: _, [], _, h, _, _ => by
    cases h
    exact .nil
  | θ :: θs, ty :: tys, ts, h, hθs, hts => by
    rw [readTuple] at h
    obtain ⟨t, hfirst, h⟩ := Except.bind_ok.1 h
    obtain ⟨rest, hrest, heq⟩ := Except.bind_ok.1 h
    cases heq
    rw [Term.areResidual, Bool.and_eq_true] at hts
    obtain ⟨hθ, hθs⟩ := List.forall_mem_cons.1 hθs
    exact .cons (leaves_of_readThunk hk hfirst hθ hts.1) (leavesAll_of_readTuple hrest hθs hts.2)

theorem leavesFields_of_readFields {e : Eval.Error} {tys : List (String × Ty)} :
    ∀ {fs : List (String × Thunk)} {ts : List (String × Term)},
      readFields (evaluate cx k) (readShape cx k) e tys fs = .ok ts →
        (∀ f ∈ fs, Thunk.Waits cx f.2) → Term.areFieldsResidual cx σ.vars ts = true →
          LeavesFields cx σ.thunks ts ts
  | [], _, h, _, _ => by
    cases h
    exact .nil
  | (key, θ) :: fs, ts, h, hfs, hts => by
    rw [readFields] at h
    split at h
    · cases h
    · obtain ⟨t, hfirst, h⟩ := Except.bind_ok.1 h
      obtain ⟨rest, hrest, heq⟩ := Except.bind_ok.1 h
      cases heq
      rw [Term.areFieldsResidual, Bool.and_eq_true] at hts
      obtain ⟨hθ, hfs⟩ := List.forall_mem_cons.1 hfs
      exact .cons (leaves_of_readThunk hk hfirst hθ hts.1)
        (leavesFields_of_readFields hrest hfs hts.2)

theorem leaves_of_readUnion {e : Eval.Error} {v : Value} {s : Term} {ty : Ty} (hv : v.Waits cx)
    (hs : ∀ ty' e, s ≠ .splice ty' e) (hres : (s.withTy ty).isResidual cx σ.vars = true) :
    ∀ {tys : List Ty}, readUnion (readShape cx k) e v tys = .ok s →
      Leaves cx σ.thunks (s.withTy ty) (s.withTy ty)
  | [], h => nomatch h
  | alternative :: tys, h => by
    rw [readUnion] at h
    unfold Result.orElse at h
    split at h
    · exact leaves_of_readUnion hv hs hres h
    · exact hk h hv hs hres

/-- What read-back at a type that is not refined gives is left as it is, if it is no splice. -/
theorem leaves_of_shapeWith {v : Value} {s : Term} {ty ty' : Ty}
    (h : shapeWith cx (evaluate cx k) (readShape cx k) v ty = .ok s) (hv : v.Waits cx)
    (hsplice : ∀ ty'' e, s ≠ .splice ty'' e) (hs : (s.withTy ty').isResidual cx σ.vars = true) :
    Leaves cx σ.thunks (s.withTy ty') (s.withTy ty') := by
  cases shaped_of_shapeWith h with
  | literal => exact .literal
  | array hts =>
    cases hv with
    | array hparts => exact .array (leavesAll_of_readThunks hk hts hparts hs)
  | list _ hts =>
    cases hv with
    | list hparts => exact .list (leavesAll_of_readThunks hk hts hparts hs)
  | compound _ hts =>
    cases hv with
    | compound hfields => exact .compound (leavesFields_of_readFields hk hts hfields hs)
  | ref _ ht =>
    cases hv with
    | ref hθ => exact .ref (leaves_of_readThunk hk ht hθ hs)
  | tuple _ _ hts =>
    cases hv with
    | tuple hparts => exact .tuple (leavesAll_of_readTuple hk hts hparts hs)
  | @closure p _ _ _ _ _ _ _ t _ hu ht =>
    rw [Term.withTy, Term.isResidual, Bool.and_eq_true, Bool.not_eq_true'] at hs
    cases hv with
    | closure hρ =>
      have hwaits := evaluate_waits k _ _ _ (AllWait.append hρ (.neutrals _)) _ hu
      have hbody : Leaves cx (σ.enter p.binders).thunks t t :=
        leaves_of_readBackWith hk ht hwaits hs.2
      exact .lambda hs.1 hbody
  | quote => exact .quote
  | var => exact .var
  | apply hf ha =>
    rw [Term.withTy, Term.isResidual, Bool.and_eq_true] at hs
    cases hv with
    | apply hoperator _ hθ =>
      exact .apply (leaves_of_readBackWith hk hf hoperator hs.1) (leaves_of_readThunk hk ha hθ hs.2)
  | cond hc ha hb =>
    rw [Term.withTy, Term.isResidual, Bool.and_eq_true, Bool.and_eq_true] at hs
    cases hv with
    | cond hcondition _ hthen helse =>
      exact .cond (leaves_of_readBackWith hk hc hcondition hs.1.1)
        (leaves_of_readThunk hk ha hthen hs.1.2) (leaves_of_readThunk hk hb helse hs.2)
  | call ha =>
    cases hv with
    | call hargument => exact .call (leaves_of_readBackWith hk ha hargument hs)
  | test he =>
    rw [Term.withTy, Term.isResidual, Bool.and_eq_true, Bool.not_eq_true'] at hs
    cases hv with
    | test hscrutinee => exact .test hs.1 (leaves_of_readBackWith hk he hscrutinee hs.2)
  | command => exact .command
  | splice => exact absurd rfl (hsplice _ _)
  | project hi =>
    rw [Term.withTy, Term.isResidual, Bool.and_eq_true, Bool.and_eq_true, Bool.not_eq_true'] at hs
    obtain ⟨⟨hp, hinit⟩, hlet⟩ := hs
    cases hv with
    | project hinit' _ hstructured hx =>
      split at hlet
      · next hdepth => exact .letIn hp (leaves_of_readBackWith hk hi hinit' hinit) hdepth .var
      · -- a stuck value was taken apart, so the binder is not of code
        rw [hstructured, List.isEmpty_eq_false_iff.2 (List.ne_nil_of_mem hx)] at hlet
        cases hlet
      · cases hlet
  | union _ ht => exact leaves_of_readUnion hk hv hsplice hs ht

end

end

/-- What was read back is left as it is. -/
theorem leavesForms (cx : Context) : ∀ k, LeavesForms cx k
  | 0 => fun _ _ _ _ _ h _ _ _ => nomatch h
  | k + 1 => fun _ _ _ _ _ h hv hsplice hs =>
    leaves_of_shapeWith (leavesForms cx k) h hv hsplice hs

/-! ## What staging leaves is left as it is -/

section

variable {cx : Context}

/-- A binder that takes nothing apart binds its variables whole. -/
theorem exists_binds {p : Pattern} (hp : p.hasHole = false)
    (hwhole : (isStructured p && !p.binders.isEmpty) = false) (θ : Thunk) :
    ∃ θs, Binds cx p θ θs ∧ θs.length = p.binders.length := by
  cases p with
  | hole => cases hp
  | var => exact ⟨[θ], .const _, rfl⟩
  | int | range | wildcard => exact ⟨[], .const _, rfl⟩
  | tuple | list | compound =>
    rw [isStructured, Bool.true_and, Bool.not_eq_false'] at hwhole
    refine ⟨[], ⟨0, fun k _ => ?_⟩, by rw [List.isEmpty_iff.1 hwhole]; rfl⟩
    unfold destructure
    dsimp only
    rw [if_pos hwhole]
    rfl

theorem Binds.waits {p : Pattern} {θ : Thunk} {θs : List Thunk} (h : Binds cx p θ θs)
    (hθ : Thunk.Waits cx θ) : AllWait cx θs := by
  obtain ⟨n, hn⟩ := h
  exact destructure_waits (force_waits (evaluate_waits n)) p θ hθ θs (hn n le_rfl)

mutual

/-- What staging leaves of a term, staging leaves as it is, in other environments too. -/
theorem leaves_again : ∀ (t : Term) {ρ : List Thunk} {r : Term} {σ : Standing}, Leaves cx ρ t r →
    AllWait cx ρ → r.isResidual cx σ.vars = true → Leaves cx σ.thunks r r
  | .literal .., _, _, _, .literal, _, _ => .literal
  | .var .., _, _, _, .var, _, _ => .var
  | .command .., _, _, _, .command, _, _ => .command
  | .quote .., _, _, _, .quote, _, _ => .quote
  | .hole _, _, _, _, h, _, _ => nomatch h
  | .array _ _ es, _, _, _, .array hes, hρ, hr => .array (leavesAll_again es hes hρ hr)
  | .list _ es, _, _, _, .list hes, hρ, hr => .list (leavesAll_again es hes hρ hr)
  | .tuple _ es, _, _, _, .tuple hes, hρ, hr => .tuple (leavesAll_again es hes hρ hr)
  | .compound _ fields, _, _, _, .compound hfields, hρ, hr =>
    .compound (leavesFields_again fields hfields hρ hr)
  | .ref _ e, _, _, _, .ref he, hρ, hr => .ref (leaves_again e he hρ hr)
  | .call _ _ a, _, _, _, .call ha, hρ, hr => .call (leaves_again a ha hρ hr)
  | .lambda _ p b, _, _, σ, .lambda hp hb, hρ, hr => by
    rw [Term.isResidual, Bool.and_eq_true] at hr
    have hbody : Leaves cx (σ.enter p.binders).thunks _ _ :=
      leaves_again b hb (hρ.append (.neutrals _)) hr.2
    exact .lambda hp hbody
  | .apply _ f a, _, _, _, .apply hf ha, hρ, hr => by
    rw [Term.isResidual, Bool.and_eq_true] at hr
    exact .apply (leaves_again f hf hρ hr.1) (leaves_again a ha hρ hr.2)
  | .cond _ c a b, _, _, _, .cond hc ha hb, hρ, hr => by
    rw [Term.isResidual, Bool.and_eq_true, Bool.and_eq_true] at hr
    exact .cond (leaves_again c hc hρ hr.1.1) (leaves_again a ha hρ hr.1.2)
      (leaves_again b hb hρ hr.2)
  | .letIn _ p i b, _, _, σ, .letIn hp hi hdepth hb, hρ, hr => by
    rw [Term.isResidual, Bool.and_eq_true, Bool.and_eq_true, hdepth] at hr
    have hbody : Leaves cx (σ.enter p.binders).thunks _ _ :=
      leaves_again b hb (hρ.append (.neutrals _)) hr.2
    exact .letIn hp (leaves_again i hi hρ hr.1.2) hdepth hbody
  | .letIn _ p i b, _, _, σ, .letCode hp hi hdepth hθs hb hrest, hρ, hr => by
    rw [Term.isResidual, Bool.and_eq_true, Bool.and_eq_true, hdepth] at hr
    obtain ⟨⟨-, hinit⟩, hlet⟩ := hr
    dsimp only at hlet
    rw [Bool.and_eq_true, Bool.not_eq_true'] at hlet
    obtain ⟨θs, hbinds, hlen⟩ := exists_binds hp hlet.1 (.delayed σ.thunks 0 _)
    have hwaits := hρ.append (hθs.waits (.delayed hρ))
    have hres := hlet.2
    rw [← hlen] at hres
    have hbody : Leaves cx (σ.hide θs).thunks _ _ := leaves_again b hb hwaits hres
    exact .letCode hp (leaves_again i hi hρ hinit) hdepth hbinds hbody hrest
  | .letIn _ p i b, _, _, _, .letGone _ _ _ hθs hb _, hρ, hr =>
    leaves_again b hb (hρ.append (hθs.waits (.delayed hρ))) hr
  | .test _ e p, _, _, _, .test hp he, hρ, hr => by
    rw [Term.isResidual, Bool.and_eq_true] at hr
    exact .test hp (leaves_again e he hρ hr.2)
  | .splice ty e, ρ, r, _, .splice hnormalizes, hρ, hr => by
    obtain ⟨n, hn⟩ := hnormalizes
    obtain ⟨v, hv, hread⟩ := Except.bind_ok.1 (hn n le_rfl)
    exact leaves_of_readBackWith (leavesForms cx n) hread (evaluate_waits n ρ 0 _ hρ v hv) hr

theorem leavesAll_again : ∀ (ts : List Term) {ρ : List Thunk} {rs : List Term} {σ : Standing},
    LeavesAll cx ρ ts rs → AllWait cx ρ → Term.areResidual cx σ.vars rs = true →
      LeavesAll cx σ.thunks rs rs
  | [], _, _, _, .nil, _, _ => .nil
  | t :: ts, _, _, _, .cons ht hts, hρ, hr => by
    rw [Term.areResidual, Bool.and_eq_true] at hr
    exact .cons (leaves_again t ht hρ hr.1) (leavesAll_again ts hts hρ hr.2)

theorem leavesFields_again : ∀ (fields : List (String × Term)) {ρ : List Thunk}
    {gs : List (String × Term)} {σ : Standing}, LeavesFields cx ρ fields gs → AllWait cx ρ →
      Term.areFieldsResidual cx σ.vars gs = true → LeavesFields cx σ.thunks gs gs
  | [], _, _, _, .nil, _, _ => .nil
  | (_, t) :: rest, _, _, _, .cons ht hrest, hρ, hr => by
    rw [Term.areFieldsResidual, Bool.and_eq_true] at hr
    exact .cons (leaves_again t ht hρ hr.1) (leavesFields_again rest hrest hρ hr.2)

end

/-- What staging leaves of a function, staging leaves as it is. -/
theorem LeavesFunction.again {f g : Staged.Function} (h : LeavesFunction cx f g)
    (hg : (Definition.function g).isResidual cx = true) : LeavesFunction cx g g := by
  cases h with
  | builtin hrun hbuiltin => exact .builtin hrun hbuiltin
  | @body b hrun hbuiltin hp hb =>
    have hbody : b.isResidual cx f.binder.binders = true :=
      (Bool.or_eq_true_iff.1 hg).resolve_left (Bool.eq_false_iff.1 hbuiltin)
    have hagain : Leaves cx (Standing.empty.enter f.binder.binders).thunks b b :=
      leaves_again f.body hb (.neutrals _) hbody
    have hruns : AtRunTime cx { f with body := b } :=
      ⟨hrun.isStatic, hrun.isInlined, hrun.binder, hrun.result⟩
    exact .body hruns hbuiltin hp hagain

end

/-- The residual of a definition does not depend on the fuel. -/
theorem residual?_unique {cx : Context} {m n : Nat} {d a b : Definition}
    (ha : residual? cx m d = .ok (some a)) (hb : residual? cx n d = .ok (some b)) : a = b := by
  rcases d with _ | f | _
  · cases ha.symm.trans hb
    rfl
  · obtain ⟨g, rfl, hleaves⟩ := leavesFunction_of_residual? ha
    obtain ⟨g', rfl, hleaves'⟩ := leavesFunction_of_residual? hb
    obtain ⟨k, hk, hk'⟩ :=
      ((eventually_residual? hleaves).and (eventually_residual? hleaves')).exists
    cases hk.symm.trans hk'
    rfl
  · cases ha.symm.trans hb
    rfl

/-- A function of a number, for its body to be staged. -/
def onNumber (numberTy : Ty) (body : Term) : Definition :=
  .function ⟨[], ⟨["main"], "f"⟩, .var (Pattern.plain numberTy) ⟨"x", 0⟩, .int, body⟩

/-- Names the number, picks code for it that cannot be picked yet, and adds what a binding of code
splices. -/
def picking (known : Term) : Term :=
  let y : Term := .var .int ⟨"y", 1⟩
  .call .int (Staged.preludeName "int_add") (.ofTuple [known, .splice .int
    (.ofCond (.ofTest y (.int (Pattern.plain .int) 0)) (.ofQuote (.ofLiteral (.int 6)))
      (.ofQuote y))])

/-- Staging changes a residual of a definition. -/
def Changes (cx : Context) (d d' : Definition) : Prop :=
  (∃ n, residual? cx n d = .ok (some d')) ∧ ∀ k, residual? cx k d' ≠ .ok (some d')

/-- A function that gives code, and one that calls it. -/
def relaying : Staged.Table := .ofList [
  .function ⟨[], ⟨["main"], "g"⟩, .var (Pattern.plain .int) ⟨"n", 0⟩, .code .int,
    .ofQuote (.ofLiteral (.int 7))⟩,
  .function ⟨[], ⟨["main"], "h"⟩, .var (Pattern.plain .int) ⟨"n", 0⟩, .code .int,
    .call (.code .int) ⟨["main"], "g"⟩ (.var .int ⟨"n", 0⟩)⟩]

/-- A splice of the code that a function gives. -/
def splicing (name : String) : Definition :=
  onNumber .int (.splice .int (.call (.code .int) ⟨["main"], name⟩ (.ofLiteral (.int 1))))

/-- A splice that picks one of two numbers. -/
def choosing (scrutinee : Term) : Definition :=
  onNumber (.singleton (.int 5)) (.splice .int
    (.ofCond (.ofTest scrutinee (.int (Pattern.plain .int) 5)) (.ofQuote (.ofLiteral (.int 1)))
      (.ofQuote (.ofLiteral (.int 2)))))

/-- A function of a number with a hole for its binder. -/
def holed : Term := .ofLambda (.hole (Pattern.plain .int)) (.ofLiteral (.int 1))

/-- A function that gives another one. -/
def giving (body : Term) : Definition :=
  .function ⟨[], ⟨["main"], "f"⟩, .var (Pattern.plain .int) ⟨"x", 0⟩, .function .int .int, body⟩

end Stagecraft.Residual
