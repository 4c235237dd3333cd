import Stagecraft.Proofs.SeparateCompilation
import Stagecraft.Proofs.SourceTyping

/-!
# Closed functions

A function of the flat language has no scope but its own: the variables of its binder and those of
the bindings in its body. What it uses of another scope is handed to it, a closure body by the
record of its captured variables and a clause of a conditional by a copy of every variable in scope.
`Term.Closed` says so of one body, `closed_of_convert` of everything that a conversion gives.

Variables are numbered by their place, so the scope of a term is a list and an occurrence is in
scope if it stands at its own level there. The scope of a conversion has the same list
(`Bindings.getElem?_vars`), which is what the induction carries.
-/

namespace Stagecraft.Flat

open Staged (Table)
open Emit (Typed typedBinders)

/-- The variables of a scope are numbered by their place. -/
def Leveled (bound : Typed) : Prop := bound.map (·.1.level) = List.range bound.length

/-- A function is called with a copy of variables: the argument is the tuple of them, and the binder
takes it apart into the same variables. -/
structure TakesCopy (bound : Typed) (argument : Term) (f : Function) : Prop where
  ty : argument.ty = f.binder.ty
  argument : argument = .ofTuple (bound.map fun e => .var e.2 e.1)
  binder : f.binder = .ofTuple (bound.map fun e => .ofVar e.1 e.2)

section

variable (helpers : List Function) (C : ClosureTable)

mutual

/-- A term uses the variables `bound` alone: every occurrence and every captured variable is one of
them, at its level and under its name. A function value has the captured variables that its body
takes, and both clauses of a conditional take the copy of the variables that it passes. The
variables of a pattern test are bound nowhere. -/
def Term.Closed (bound : Typed) : Term → Prop
  | .literal .. | .command .. => True
  | .array _ _ es | .list _ es | .tuple _ es => AllClosed bound es
  | .compound _ fields => FieldsClosed bound fields
  | .ref _ e | .call _ _ e | .test _ e _ => e.Closed bound
  | .closure _ tag captures => (∀ c ∈ captures, bound[c.v.level]? = some (c.v, c.ty)) ∧
      ∃ f ∈ helpers, C.bodies[tag]? = some f.name ∧ ∃ p, f.binder = closureBinder p captures
  | .branch _ c a thenName elseName => c.Closed bound ∧ a.Closed bound ∧
      ∀ name ∈ [thenName, elseName], ∃ f ∈ helpers, f.name = name ∧ TakesCopy bound a f
  | .letIn _ p i b => i.Closed bound ∧ Leveled (bound ++ typedBinders p) ∧
      b.Closed (bound ++ typedBinders p)
  | .var _ v => ∃ τ, bound[v.level]? = some (v, τ)

def Term.AllClosed (bound : Typed) : List Term → Prop
  | [] => True
  | t :: ts => t.Closed bound ∧ AllClosed bound ts

def Term.FieldsClosed (bound : Typed) : List (String × Term) → Prop
  | [] => True
  | (_, t) :: rest => t.Closed bound ∧ FieldsClosed bound rest

end

/-- A function is closed under its own binder. -/
def Function.Closed (f : Function) : Prop :=
  Leveled (typedBinders f.binder) ∧ f.body.Closed helpers C (typedBinders f.binder)

/-- A definition is closed; an asset has no variables. -/
def Definition.Closed : Definition → Prop
  | .function f => f.Closed helpers C
  | .builtin _ => True
  | .resource r => r.body.Closed helpers C []

end

/-! ## The variables in scope -/

theorem Bindings.leveled_vars (S : Bindings) : Leveled S.vars := by
  have hlevel : (fun e : Var × Ty => e.1.level) ∘ (fun e : Binding × Nat =>
      ((⟨e.1.name, e.2⟩ : Var), e.1.ty)) = Prod.snd := rfl
  rw [Leveled, Bindings.vars, List.map_map, hlevel, List.zipIdx_map_snd, List.length_map,
    List.length_zipIdx, List.range_eq_range']

/-- A variable in scope stands at its level. -/
theorem Bindings.getElem?_vars {S : Bindings} {v : Var} {τ : Ty} (h : (v, τ) ∈ S.vars) :
    S.vars[v.level]? = some (v, τ) := by
  obtain ⟨⟨b, i⟩, hb, he⟩ := List.mem_map.1 h
  cases he
  rw [Bindings.vars, List.getElem?_map, List.getElem?_zipIdx,
    List.mk_mem_zipIdx_iff_getElem?.1 hb]
  simp

/-- The tuple of the variables in scope uses those alone. -/
theorem Bindings.closed_argument (helpers : List Function) (C : ClosureTable) (S : Bindings) :
    S.argument.Closed helpers C S.vars := by
  have hvars : ∀ vars : Typed, vars ⊆ S.vars →
      Term.AllClosed helpers C S.vars (vars.map fun e => .var e.2 e.1) := by
    intro vars hsub
    induction vars with
    | nil => trivial
    | cons e vars ih =>
      obtain ⟨he, hrest⟩ := List.cons_subset.1 hsub
      exact ⟨⟨e.2, Bindings.getElem?_vars he⟩, ih hrest⟩
  exact hvars S.vars (List.Subset.refl _)

/-- A clause of a conditional is called with a copy of the variables in scope. -/
theorem Bindings.takesCopy (S : Bindings) (name : DefName) (τ : Ty) (body : Term)
    (restore : Option Int32) :
    TakesCopy S.vars S.argument ⟨[], name, S.binder, τ, body, restore⟩ where
  ty := S.ty_argument.trans S.ty_binder.symm
  argument := rfl
  binder := rfl

/-- A function is closed if its body is closed in a scope that its binder makes. -/
theorem Function.Closed.of_scope {helpers : List Function} {C : ClosureTable} {f : Function}
    {S : Bindings} (hbinder : S.vars = typedBinders f.binder)
    (hbody : f.body.Closed helpers C S.vars) : f.Closed helpers C :=
  ⟨hbinder ▸ S.leveled_vars, hbinder ▸ hbody⟩

/-! ## One conversion -/

section

variable {R : Progress} {name : DefName} {before : ClosureTable} {table : Table}

mutual

/-- A term is converted to one that is closed in its scope, and so is every helper on the way. -/
theorem registers_closed {pre : Prop} : ∀ (t : Staged.Term) (S : Bindings),
    Registers R ⟨name, before.size⟩ (·.Closed R.helpers (before.append R.closures)) pre
      (Term.ofStaged table ⟨name, before.size⟩ S t)
      fun t' => t'.Closed R.helpers (before.append R.closures) S.vars
  | .literal t l, S => by
    unfold Term.ofStaged
    exact Registers.lift.bind fun τ => .ret fun _ => trivial
  | .array t kind es, S => by
    unfold Term.ofStaged
    refine Registers.lift.bind fun τ => (registersAll_closed es S).bind fun es' => .ret ?_
    exact fun hpre => hpre.2
  | .list t es, S => by
    unfold Term.ofStaged
    refine Registers.lift.bind fun τ => (registersAll_closed es S).bind fun es' => .ret ?_
    exact fun hpre => hpre.2
  | .compound t fields, S => by
    unfold Term.ofStaged
    refine Registers.lift.bind fun τ =>
      (registersFields_closed fields S).bind fun fields' => .ret ?_
    exact fun hpre => hpre.2
  | .ref t e, S => by
    unfold Term.ofStaged
    refine Registers.lift.bind fun τ => (registers_closed e S).bind fun e' => .ret ?_
    exact fun hpre => hpre.2
  | .tuple t es, S => by
    unfold Term.ofStaged
    refine Registers.lift.bind fun τ => (registersAll_closed es S).bind fun es' => .ret ?_
    exact fun hpre => hpre.2
  | .lambda t p b, S => by
    unfold Term.ofStaged
    refine Registers.lift.bind fun τ => Registers.lift.bind fun captures => ?_
    split
    · next σ τ =>
      refine Registers.lift.bind fun ⟨p', inner⟩ => ?_
      -- the body starts from a scope of its own: the parameter, then the captured variables
      refine (registers_closed b (bindCaptures inner captures).2).bind fun b' => ?_
      refine (Registers.addClosure fun hpre _ _ => ?_).bind fun tag => .ret ?_
      · obtain ⟨⟨_, hp⟩, hb⟩ := hpre
        exact .of_scope (typedBinders_closure (mirrors_ofStaged hp).vars_eq).symm hb
      · rintro ⟨⟨⟨⟨⟨_, _⟩, hcaptures⟩, hp⟩, _⟩, i, body, rfl, hbody, hhelper⟩
        refine ⟨fun c hc => Bindings.getElem?_vars (capturesOf_spec hcaptures c hc).2.1, _, hhelper,
          ?_, p', (mirrors_ofStaged hp).closureBinder_eq captures⟩
        rw [← hbody, ClosureTable.append, ClosureTable.size,
          List.getElem?_append_right (Nat.le_add_right _ i), Nat.add_sub_cancel_left]
    · exact .throw
  | .apply t f a, S => by
    unfold Term.ofStaged
    refine Registers.lift.bind fun τ => (registers_closed f S).bind fun f' => ?_
    refine (registers_closed a S).bind fun a' => .ret ?_
    rintro ⟨⟨_, hf⟩, ha⟩
    exact ⟨ha, hf, trivial⟩
  | .cond t c a b, S => by
    unfold Term.ofStaged
    refine Registers.lift.bind fun τ => Registers.lift.bind fun _ => Registers.lift.bind fun _ => ?_
    have hbinder : S.vars = typedBinders S.binder := (typedBinders_binder S).symm
    refine (registers_closed c S).bind fun c' => (registers_closed a S).bind fun a' => ?_
    refine (Registers.addClause_mem fun hpre _ => .of_scope hbinder hpre.2).bind fun thenName => ?_
    refine (registers_closed b S).bind fun b' => ?_
    refine (Registers.addClause_mem fun hpre _ => .of_scope hbinder hpre.2).bind
      fun elseName => .ret ?_
    rintro ⟨⟨⟨⟨⟨_, hc⟩, _⟩, hthen⟩, _⟩, helse⟩
    refine ⟨hc, S.closed_argument _ _, ?_⟩
    intro name hname
    rcases List.mem_pair.1 hname with rfl | rfl
    · exact ⟨_, hthen, rfl, S.takesCopy _ _ _ _⟩
    · exact ⟨_, helse, rfl, S.takesCopy _ _ _ _⟩
  | .letIn t p i b, S => by
    unfold Term.ofStaged
    refine Registers.lift.bind fun τ => (registers_closed i S).bind fun i' => ?_
    refine Registers.lift.bind fun ⟨p', inner⟩ => (registers_closed b inner).bind fun b' => .ret ?_
    rintro ⟨⟨⟨_, hi⟩, hp⟩, hb⟩
    have hbound : inner.vars = S.vars ++ typedBinders p' := (mirrors_ofStaged hp).vars_eq
    exact ⟨hi, hbound ▸ inner.leveled_vars, hbound ▸ hb⟩
  | .var t v, S => by
    unfold Term.ofStaged
    refine Registers.lift.bind fun τ => Registers.lift.bind fun ⟨v', σ⟩ => .ret ?_
    exact fun hpre => ⟨σ, Bindings.getElem?_vars (Bindings.resolve_spec hpre.2).1⟩
  | .call t name a, S => by
    unfold Term.ofStaged
    refine Registers.lift.bind fun τ => ?_
    split
    · exact .throw
    · refine (registers_closed a S).bind fun a' => .ret ?_
      exact fun hpre => hpre.2
  | .test t e p, S => by
    unfold Term.ofStaged
    refine Registers.lift.bind fun τ => (registers_closed e S).bind fun e' => ?_
    refine Registers.lift.bind fun ⟨p', inner⟩ => .ret ?_
    exact fun hpre => hpre.1.2
  | .command t line, S => by
    unfold Term.ofStaged
    exact Registers.lift.bind fun τ => .ret fun _ => trivial
  | .quote .., S => by
    unfold Term.ofStaged
    exact Registers.lift.bind fun _ => .throw
  | .splice .., S => by
    unfold Term.ofStaged
    exact Registers.lift.bind fun _ => .throw
  | .hole .., S => by
    unfold Term.ofStaged
    exact Registers.lift.bind fun _ => .throw

theorem registersAll_closed {pre : Prop} : ∀ (ts : List Staged.Term) (S : Bindings),
    Registers R ⟨name, before.size⟩ (·.Closed R.helpers (before.append R.closures)) pre
      (Term.ofStagedAll table ⟨name, before.size⟩ S ts)
      fun ts' => Term.AllClosed R.helpers (before.append R.closures) S.vars ts'
  | [], S => by
    unfold Term.ofStagedAll
    exact .ret fun _ => trivial
  | t :: ts, S => by
    unfold Term.ofStagedAll
    refine (registers_closed t S).bind fun t' => (registersAll_closed ts S).bind fun ts' => .ret ?_
    exact fun hpre => ⟨hpre.1.2, hpre.2⟩

theorem registersFields_closed {pre : Prop} : ∀ (fields : List (String × Staged.Term))
    (S : Bindings),
    Registers R ⟨name, before.size⟩ (·.Closed R.helpers (before.append R.closures)) pre
      (Term.ofStagedFields table ⟨name, before.size⟩ S fields)
      fun fields' => Term.FieldsClosed R.helpers (before.append R.closures) S.vars fields'
  | [], S => by
    unfold Term.ofStagedFields
    exact .ret fun _ => trivial
  | (key, t) :: rest, S => by
    unfold Term.ofStagedFields
    refine (registers_closed t S).bind fun t' =>
      (registersFields_closed rest S).bind fun rest' => .ret ?_
    exact fun hpre => ⟨hpre.1.2, hpre.2⟩

end

/-- A definition is converted to a closed one. -/
theorem registers_closedDefinition {pre : Prop} (d : Staged.Definition) :
    Registers R ⟨name, before.size⟩ (·.Closed R.helpers (before.append R.closures)) pre
      (Definition.ofStaged table ⟨name, before.size⟩ d)
      fun own => ∀ e ∈ own, e.Closed R.helpers (before.append R.closures) := by
  rcases d with r | f | _
  · unfold Definition.ofStaged
    refine (registers_closed r.body .empty).bind fun body =>
      Registers.lift.bind fun marks => .ret ?_
    intro hpre e he
    cases List.mem_singleton.1 he
    exact hpre.1.2
  · unfold Definition.ofStaged Definition.ofStagedFunction
    simp only [bind_assoc]
    refine Registers.lift.bind fun marks => ?_
    split
    · simp only [bind_assoc, pure_bind]
      refine Registers.lift.bind fun param => Registers.lift.bind fun result => .ret ?_
      intro hpre e he
      cases List.mem_singleton.1 he
      trivial
    · simp only [bind_assoc, pure_bind]
      refine Registers.lift.bind fun ⟨binder, scope⟩ => ?_
      refine (registers_closed f.body scope).bind fun body => Registers.lift.bind fun result =>
        .ret ?_
      rintro ⟨⟨⟨_, hbinder⟩, hbody⟩, _⟩ e he
      cases List.mem_singleton.1 he
      have hbound : scope.vars = typedBinders binder := (mirrors_ofStaged hbinder).vars_eq
      exact .of_scope hbound hbody
  · unfold Definition.ofStaged
    exact .ret fun _ e he => nomatch he

end

/-- **Converted functions are closed.** Whatever a definition is converted to, under any table and
after any closure bodies, has names of its own, and every function among it is closed under its own
binder: each occurrence and each captured variable is a variable of the binder or of a binding
around it, at its level and under its name. A conditional passes each of its clauses the tuple of
the variables in scope, which is what the binder of the clause takes apart, and a function value has
the captured variables that the body at its tag takes. -/
theorem closed_of_convert {table : Table} {before after : ClosureTable} {d : Staged.Definition}
    {flat : List Definition} (h : convert table before d = .ok (flat, after)) :
    (flat.map (·.name)).Nodup ∧ ∃ own helpers, flat = own ++ helpers.map .function ∧
      ∀ e ∈ flat, e.Closed helpers after := by
  obtain ⟨own, helpers, bodies, hflat, -, hout⟩ := exists_isOutcome h
  refine ⟨hflat ▸ nodup_names hout.length_own hout.name_own hout.names, ?_⟩
  unfold convert at h
  rw [Except.bind_ok] at h
  obtain ⟨⟨own, progress⟩, hrun, h⟩ := h
  cases h
  -- facts are relative to the progress at the end, which is what the conversion leaves
  have hreg : Registers progress ⟨d.name, before.size⟩
      (·.Closed progress.helpers (before.append progress.closures)) True
      (Definition.ofStaged table ⟨d.name, before.size⟩ d) _ := registers_closedDefinition d
  have hempty : Progress.Kept ⟨d.name, before.size⟩
      (·.Closed progress.helpers (before.append progress.closures)) ⟨0, [], []⟩ :=
    ⟨Progress.numbered_empty _, fun f hf => nomatch hf⟩
  obtain ⟨hkept, hown⟩ := (hreg hrun).2 trivial (.refl progress) hempty
  refine ⟨own, progress.helpers, rfl, fun e he => ?_⟩
  rcases List.mem_append.1 he with he | he
  · exact hown e he
  · obtain ⟨f, hf, rfl⟩ := List.mem_map.1 he
    exact hkept.fine f hf

/-- A function that makes a function with a conditional under a binding, both clauses of which make
functions again; one of them uses a variable of every scope around it, the other a shadowed name. -/
def curried : Staged.Definition :=
  let binder := fun name level => Staged.Pattern.var (Staged.Pattern.plain .int) ⟨name, level⟩
  .function ⟨[], ⟨["main"], "curry"⟩, binder "x" 0, .function .int (.function .int .int),
    .ofLambda (binder "y" 1) (.ofLet (binder "w" 2) (.var .int ⟨"x", 0⟩)
      (.ofCond (.ofTest (.var .int ⟨"w", 2⟩) (binder "v" 3))
        (.ofLambda (binder "z" 3)
          (.ofTuple [.var .int ⟨"z", 3⟩, .var .int ⟨"w", 2⟩, .var .int ⟨"y", 1⟩,
            .var .int ⟨"x", 0⟩]))
        (.ofLambda (binder "y" 3) (.ofTuple [.var .int ⟨"y", 3⟩, .var .int ⟨"x", 0⟩]))))⟩

theorem closed_of_convert_curried :
    ∃ flat after, convert .empty .empty curried = .ok (flat, after) ∧
    flat.map (·.name.name) = ["curry", "curry:0", "curry:1", "curry:2", "curry:3", "curry:4"] ∧
    (flat.map (·.name)).Nodup ∧ ∃ own helpers, flat = own ++ helpers.map .function ∧
      ∀ e ∈ flat, e.Closed helpers after := by
  have hnames : ((convert .empty .empty curried).toOption.any fun r =>
      r.1.map (·.name.name) = ["curry", "curry:0", "curry:1", "curry:2", "curry:3", "curry:4"]) =
        true := by
    decide +kernel
  cases h : convert .empty .empty curried with
  | error e =>
    rw [h] at hnames
    cases hnames
  | ok r =>
    rw [h, Except.toOption, Option.any_some, decide_eq_true_eq] at hnames
    exact ⟨r.1, r.2, rfl, hnames, closed_of_convert h⟩

end Stagecraft.Flat
