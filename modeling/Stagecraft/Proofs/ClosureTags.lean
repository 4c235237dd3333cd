import Stagecraft.Proofs.HelperLogic

/-!
# Closure tags

A function value carries the place of its body in the table of closure bodies. The table is filled
while terms are converted, helpers of inner functions before those of outer ones, and a conversion
that fails leaves it alone. `Session.after` is the state after any number of conversions that share
one table, and `Session.Coherent` says that tags, table, helpers and captured variables fit together
in it.

The argument has two layers. Within one conversion the logic of helpers keeps the numbering and the
soundness of every function value (`registers_ofStaged`). Between conversions names keep the
helpers apart: a definition name without a colon is the name of no helper, and two such names have
no helper name in common.
-/

namespace Stagecraft

namespace Staged.Term

mutual

/-- The local functions that a term makes itself, the operator of an application after its argument.
Those in the body of a local function or in a clause of a conditional are made elsewhere. -/
def functions : Term → List Term
  | .literal .. | .var .. | .command .. | .hole _ => []
  | .array _ _ es | .list _ es | .tuple _ es => functionsOfAll es
  | .compound _ fields => functionsOfFields fields
  | .ref _ e | .call _ _ e | .test _ e _ | .quote _ e | .splice _ e => functions e
  | .lambda t p b => [.lambda t p b]
  | .apply _ f a => functions a ++ functions f
  | .cond _ c _ _ => functions c
  | .letIn _ _ i b => functions i ++ functions b

def functionsOfAll : List Term → List Term
  | [] => []
  | t :: ts => functions t ++ functionsOfAll ts

def functionsOfFields : List (String × Term) → List Term
  | [] => []
  | (_, t) :: rest => functions t ++ functionsOfFields rest

end

mutual

/-- The terms inside a term that become bodies of helpers. -/
def outlined : Term → List Term
  | .literal .. | .var .. | .command .. | .hole _ => []
  | .array _ _ es | .list _ es | .tuple _ es => outlinedOfAll es
  | .compound _ fields => outlinedOfFields fields
  | .ref _ e | .call _ _ e | .test _ e _ | .quote _ e | .splice _ e => outlined e
  | .lambda _ _ b => b :: outlined b
  | .apply _ f a => outlined f ++ outlined a
  | .cond _ c a b => outlined c ++ ((a :: outlined a) ++ (b :: outlined b))
  | .letIn _ _ i b => outlined i ++ outlined b

def outlinedOfAll : List Term → List Term
  | [] => []
  | t :: ts => outlined t ++ outlinedOfAll ts

def outlinedOfFields : List (String × Term) → List Term
  | [] => []
  | (_, t) :: rest => outlined t ++ outlinedOfFields rest

end

end Staged.Term

/-- The body of a definition and the terms inside it that become bodies of helpers. -/
def Staged.Definition.parts : Staged.Definition → List Staged.Term
  | .function f => f.body :: f.body.outlined
  | .resource r => r.body :: r.body.outlined
  | .alias _ => []

namespace Flat

open Staged (Table)

namespace Term

mutual

/-- The function values made in a term: the tag and the captured variables of each. -/
def closures : Term → List (Nat × List Capture)
  | .literal .. | .var .. | .command .. => []
  | .array _ _ es | .list _ es | .tuple _ es => closuresOfAll es
  | .compound _ fields => closuresOfFields fields
  | .ref _ e | .call _ _ e | .test _ e _ => closures e
  | .closure _ tag captures => [(tag, captures)]
  | .branch _ c a _ _ => closures c ++ closures a
  | .letIn _ _ i b => closures i ++ closures b

def closuresOfAll : List Term → List (Nat × List Capture)
  | [] => []
  | t :: ts => closures t ++ closuresOfAll ts

def closuresOfFields : List (String × Term) → List (Nat × List Capture)
  | [] => []
  | (_, t) :: rest => closures t ++ closuresOfFields rest

end

end Term

/-- The term that a definition evaluates; a built-in function has none. -/
def Definition.body? : Definition → Option Term
  | .function f => some f.body
  | .builtin _ => none
  | .resource r => some r.body

/-- A function takes the parameter of a local function together with a record of the variables
captured for it, which are its free variables in the order of first use. -/
def IsBodyOf (table : Table) (lambda : Staged.Term) (captures : List Capture) (f : Function) :
    Prop :=
  ∃ t p b param scope, lambda = .lambda t p b ∧
    Pattern.ofStaged table .empty p = .ok (param, scope) ∧
    captures.map (·.v.name) = lambda.freeNames.names ∧
    f.binder = .ofTuple [param, .compound ⟨[], capturesTy captures⟩
      (captureFields scope.length captures)]

theorem names_capturesOf {S : Bindings} {names : List String} {captures : List Capture}
    (h : capturesOf S names = .ok captures) : captures.map (·.v.name) = names := by
  induction names generalizing captures with
  | nil =>
    cases h
    rfl
  | cons name rest ih =>
    simp only [capturesOf, Except.bind_ok] at h
    obtain ⟨⟨v, τ⟩, hv, more, hmore, h⟩ := h
    cases h
    rw [List.map_cons, ih hmore, (Bindings.resolve_ok hv).1]

theorem closures_argument (S : Bindings) : S.argument.closures = [] := by
  have hvars : ∀ vars : List (Var × Ty),
      Term.closuresOfAll (vars.map fun e => .var e.2 e.1) = [] := by
    intro vars
    induction vars with
    | nil => rfl
    | cons v vars ih => rw [List.map_cons, Term.closuresOfAll, ih, Term.closures, List.nil_append]
  rw [Bindings.argument, Term.ofTuple, Term.closures, hvars]

/-! ## Within one conversion -/

section

variable {R : Progress} {site : Site} {table : Table} {L : List Staged.Term}

/-- The tag of a function value is that of the body of the local function it was made for. -/
def Sound (R : Progress) (site : Site) (table : Table) (lambda : Staged.Term)
    (value : Nat × List Capture) : Prop :=
  ∃ i, ∃ f ∈ R.helpers, value.1 = site.firstTag + i ∧ R.closures[i]? = some f.name ∧
    IsBodyOf table lambda value.2 f

/-- A helper that makes the local functions of one of the terms `L`, in order. -/
def MakesSound (R : Progress) (site : Site) (table : Table) (L : List Staged.Term)
    (f : Function) : Prop :=
  ∃ t ∈ L, List.Forall₂ (Sound R site table) t.functions f.body.closures

mutual

/-- Every function value in a converted term is sound, and so is every one in a helper. -/
theorem registers_ofStaged {pre : Prop} : ∀ (t : Staged.Term) (S : Bindings), t.outlined ⊆ L →
    Registers R site (MakesSound R site table L) pre (Term.ofStaged table site S t)
      fun t' => List.Forall₂ (Sound R site table) t.functions t'.closures
  | .literal t l, S, _ => by
    unfold Term.ofStaged
    exact Registers.lift.bind fun τ => .ret fun _ => .nil
  | .array t kind es, S, h => by
    unfold Term.ofStaged
    refine Registers.lift.bind fun τ => (registersAll_ofStaged es S h).bind fun es' => .ret ?_
    exact fun hpre => hpre.2
  | .list t es, S, h => by
    unfold Term.ofStaged
    refine Registers.lift.bind fun τ => (registersAll_ofStaged es S h).bind fun es' => .ret ?_
    exact fun hpre => hpre.2
  | .compound t fields, S, h => by
    unfold Term.ofStaged
    refine Registers.lift.bind fun τ =>
      (registersFields_ofStaged fields S h).bind fun fields' => .ret ?_
    exact fun hpre => hpre.2
  | .ref t e, S, h => by
    unfold Term.ofStaged
    refine Registers.lift.bind fun τ => (registers_ofStaged e S h).bind fun e' => .ret ?_
    exact fun hpre => hpre.2
  | .tuple t es, S, h => by
    unfold Term.ofStaged
    refine Registers.lift.bind fun τ => (registersAll_ofStaged es S h).bind fun es' => .ret ?_
    exact fun hpre => hpre.2
  | .lambda t p b, S, h => by
    unfold Term.ofStaged
    have hbody : b ∈ L := h List.mem_cons_self
    have hinner : b.outlined ⊆ L := fun l hl => h (List.mem_cons_of_mem _ hl)
    refine Registers.lift.bind fun τ => Registers.lift.bind fun captures => ?_
    split
    · next σ τ =>
      refine Registers.lift.bind fun ⟨p', inner⟩ => ?_
      refine (registers_ofStaged b (bindCaptures inner captures).2 hinner).bind fun b' => ?_
      refine (Registers.addClosure fun hpre _ _ => ⟨b, hbody, hpre.2⟩).bind fun tag => .ret ?_
      rintro ⟨⟨⟨⟨⟨_, _⟩, hcaptures⟩, hp⟩, _⟩, i, name, htag, hname, hhelper⟩
      refine .cons ⟨i, _, hhelper, htag, hname, t, p, b, p', inner, rfl, hp,
        names_capturesOf hcaptures, ?_⟩ .nil
      exact congrArg (fun r => Pattern.ofTuple [p', r.1]) (bindCaptures_eq inner captures)
    · exact .throw
  | .apply t f a, S, h => by
    unfold Term.ofStaged
    obtain ⟨hf, ha⟩ := List.append_subset.1 h
    refine Registers.lift.bind fun τ => (registers_ofStaged f S hf).bind fun f' => ?_
    refine (registers_ofStaged a S ha).bind fun a' => .ret ?_
    rintro ⟨⟨_, hf'⟩, ha'⟩
    have hargs : ((Term.ofTuple [a', f']).closures) = a'.closures ++ f'.closures := by
      simp only [Term.ofTuple, Term.closures, Term.closuresOfAll, List.append_nil]
    rw [Term.closures, hargs]
    exact List.rel_append ha' hf'
  | .cond t c a b, S, h => by
    unfold Term.ofStaged
    obtain ⟨hc, hab⟩ := List.append_subset.1 h
    obtain ⟨ha, hb⟩ := List.append_subset.1 hab
    obtain ⟨hmemA, hinA⟩ := List.cons_subset.1 ha
    obtain ⟨hmemB, hinB⟩ := List.cons_subset.1 hb
    refine Registers.lift.bind fun τ => Registers.lift.bind fun _ => Registers.lift.bind fun _ => ?_
    refine (registers_ofStaged c S hc).bind fun c' =>
      (registers_ofStaged a S hinA).bind fun a' => ?_
    refine (Registers.addClause fun hpre _ => ⟨a, hmemA, hpre.2⟩).bind fun thenName => ?_
    refine (registers_ofStaged b S hinB).bind fun b' => ?_
    refine (Registers.addClause fun hpre _ => ⟨b, hmemB, hpre.2⟩).bind fun elseName => .ret ?_
    rintro ⟨⟨⟨⟨⟨_, hc'⟩, _⟩, _⟩, _⟩, _⟩
    rw [Term.closures, closures_argument, List.append_nil]
    exact hc'
  | .letIn t p i b, S, h => by
    unfold Term.ofStaged
    obtain ⟨hi, hb⟩ := List.append_subset.1 h
    refine Registers.lift.bind fun τ => (registers_ofStaged i S hi).bind fun i' => ?_
    refine Registers.lift.bind fun ⟨p', inner⟩ =>
      (registers_ofStaged b inner hb).bind fun b' => .ret ?_
    rintro ⟨⟨⟨_, hi'⟩, _⟩, hb'⟩
    exact List.rel_append hi' hb'
  | .var t v, S, _ => by
    unfold Term.ofStaged
    exact Registers.lift.bind fun τ => Registers.lift.bind fun ⟨v', σ⟩ => .ret fun _ => .nil
  | .call t name a, S, h => by
    unfold Term.ofStaged
    refine Registers.lift.bind fun τ => ?_
    split
    · exact .throw
    · refine (registers_ofStaged a S h).bind fun a' => .ret ?_
      exact fun hpre => hpre.2
  | .test t e p, S, h => by
    unfold Term.ofStaged
    refine Registers.lift.bind fun τ => (registers_ofStaged e S h).bind fun e' => ?_
    refine Registers.lift.bind fun ⟨p', inner⟩ => .ret ?_
    exact fun hpre => hpre.1.2
  | .command t line, S, _ => by
    unfold Term.ofStaged
    exact Registers.lift.bind fun τ => .ret fun _ => .nil
  | .quote .., S, _ => by
    unfold Term.ofStaged
    exact Registers.lift.bind fun _ => .throw
  | .splice .., S, _ => by
    unfold Term.ofStaged
    exact Registers.lift.bind fun _ => .throw
  | .hole .., S, _ => by
    unfold Term.ofStaged
    exact Registers.lift.bind fun _ => .throw

theorem registersAll_ofStaged {pre : Prop} : ∀ (ts : List Staged.Term) (S : Bindings),
    Staged.Term.outlinedOfAll ts ⊆ L →
    Registers R site (MakesSound R site table L) pre (Term.ofStagedAll table site S ts)
      fun ts' => List.Forall₂ (Sound R site table) (Staged.Term.functionsOfAll ts)
        (Term.closuresOfAll ts')
  | [], S, _ => by
    unfold Term.ofStagedAll
    exact .ret fun _ => .nil
  | t :: ts, S, h => by
    unfold Term.ofStagedAll
    obtain ⟨ht, hts⟩ := List.append_subset.1 h
    refine (registers_ofStaged t S ht).bind fun t' =>
      (registersAll_ofStaged ts S hts).bind fun ts' => .ret ?_
    rintro ⟨⟨_, ht'⟩, hts'⟩
    exact List.rel_append ht' hts'

theorem registersFields_ofStaged {pre : Prop} : ∀ (fields : List (String × Staged.Term))
    (S : Bindings), Staged.Term.outlinedOfFields fields ⊆ L →
    Registers R site (MakesSound R site table L) pre (Term.ofStagedFields table site S fields)
      fun fields' => List.Forall₂ (Sound R site table) (Staged.Term.functionsOfFields fields)
        (Term.closuresOfFields fields')
  | [], S, _ => by
    unfold Term.ofStagedFields
    exact .ret fun _ => .nil
  | (key, t) :: rest, S, h => by
    unfold Term.ofStagedFields
    obtain ⟨ht, hrest⟩ := List.append_subset.1 h
    refine (registers_ofStaged t S ht).bind fun t' =>
      (registersFields_ofStaged rest S hrest).bind fun rest' => .ret ?_
    rintro ⟨⟨_, ht'⟩, hrest'⟩
    exact List.rel_append ht' hrest'

end

/-- What one conversion gives: a definition of the name that was converted, if it has a flat form,
then the helpers in the order they were split off, then more entries of the table. -/
structure IsOutcome (table : Table) (d : Staged.Definition) (before : ClosureTable)
    (own : List Definition) (helpers : List Function) (bodies : List DefName) : Prop where
  length_own : own.length ≤ 1
  name_own : ∀ e ∈ own, e.name = d.name
  names : helpers.map (·.name) = (List.range helpers.length).map (helperName d.name)
  body : ∀ {i name}, bodies[i]? = some name →
    ∃ f ∈ helpers, f.name = name ∧ f.restore = some (Int32.ofNat (before.size + i))
  values : ∀ e ∈ own ++ helpers.map .function, ∀ body, e.body? = some body → ∃ t ∈ d.parts,
    List.Forall₂ (fun lambda value => ∃ i, ∃ f ∈ helpers, value.1 = before.size + i ∧
      bodies[i]? = some f.name ∧ IsBodyOf table lambda value.2 f) t.functions body.closures

theorem registers_ofStagedFunction {pre : Prop} (f : Staged.Function)
    (h : f.body.outlined ⊆ L) :
    Registers R site (MakesSound R site table L) pre (Definition.ofStagedFunction table site f)
      fun e => e.name = f.name ∧ ∀ body, e.body? = some body →
        List.Forall₂ (Sound R site table) f.body.functions body.closures := by
  unfold Definition.ofStagedFunction
  refine Registers.lift.bind fun marks => ?_
  split
  · refine Registers.lift.bind fun param => Registers.lift.bind fun result => .ret ?_
    exact fun _ => ⟨rfl, fun body hbody => nomatch hbody⟩
  · refine Registers.lift.bind fun ⟨binder, scope⟩ => ?_
    refine (registers_ofStaged f.body scope h).bind fun body => Registers.lift.bind fun result => ?_
    refine .ret fun hpre => ⟨rfl, ?_⟩
    rintro _ ⟨⟩
    exact hpre.1.2

theorem registers_definition {pre : Prop} (d : Staged.Definition) (h : d.parts ⊆ L) :
    Registers R site (MakesSound R site table L) pre (Definition.ofStaged table site d)
      fun own => own.length ≤ 1 ∧ ∀ e ∈ own, e.name = d.name ∧ ∀ body, e.body? = some body →
        ∃ t ∈ L, List.Forall₂ (Sound R site table) t.functions body.closures := by
  rcases d with r | f | _
  · unfold Definition.ofStaged
    obtain ⟨hbody, houtlined⟩ := List.cons_subset.1 h
    refine (registers_ofStaged r.body .empty houtlined).bind fun body =>
      Registers.lift.bind fun marks => .ret ?_
    rintro ⟨⟨_, hvalues⟩, _⟩
    refine ⟨Nat.le_refl 1, fun e he => ?_⟩
    rw [List.mem_singleton] at he
    subst he
    refine ⟨rfl, ?_⟩
    rintro _ ⟨⟩
    exact ⟨r.body, hbody, hvalues⟩
  · unfold Definition.ofStaged
    obtain ⟨hbody, houtlined⟩ := List.cons_subset.1 h
    refine (registers_ofStagedFunction f houtlined).bind fun e => .ret ?_
    rintro ⟨_, hname, hvalues⟩
    refine ⟨Nat.le_refl 1, fun e' he' => ?_⟩
    rw [List.mem_singleton] at he'
    subst he'
    exact ⟨hname, fun body hb => ⟨f.body, hbody, hvalues body hb⟩⟩
  · unfold Definition.ofStaged
    exact .ret fun _ => ⟨Nat.zero_le 1, fun e he => nomatch he⟩

theorem exists_isOutcome {d : Staged.Definition} {before after : ClosureTable}
    {flat : List Definition} (h : convert table before d = .ok (flat, after)) :
    ∃ own helpers bodies, flat = own ++ helpers.map .function ∧ after = before.append bodies ∧
      IsOutcome table d before own helpers bodies := by
  unfold convert at h
  rw [Except.bind_ok] at h
  obtain ⟨⟨own, progress⟩, hrun, h⟩ := h
  cases h
  -- facts are relative to the progress at the end, which is what the conversion leaves
  have hreg : Registers progress ⟨d.name, before.size⟩
      (MakesSound progress ⟨d.name, before.size⟩ table d.parts) True _ _ :=
    registers_definition d (List.Subset.refl _)
  have hempty : Progress.Kept ⟨d.name, before.size⟩
      (MakesSound progress ⟨d.name, before.size⟩ table d.parts) ⟨0, [], []⟩ :=
    ⟨Progress.numbered_empty _, fun f hf => nomatch hf⟩
  obtain ⟨hkept, hlength, hown⟩ := (hreg hrun).2 trivial (.refl progress) hempty
  refine ⟨own, progress.helpers, progress.closures, rfl, rfl, hlength,
    fun e he => (hown e he).1, hkept.numbered.names, hkept.numbered.bodies, ?_⟩
  intro e he body hbody
  rcases List.mem_append.1 he with he | he
  · exact (hown e he).2 body hbody
  · obtain ⟨f, hf, rfl⟩ := List.mem_map.1 he
    cases hbody
    exact hkept.fine f hf

end

/-- Helpers that are counted are named as helpers. -/
theorem exists_helperName_of_mem {name : DefName} {helpers : List Function}
    (h : helpers.map (·.name) = (List.range helpers.length).map (helperName name)) {f : Function}
    (hf : f ∈ helpers) : ∃ i, f.name = helperName name i := by
  have hmem : f.name ∈ helpers.map (·.name) := List.mem_map_of_mem hf
  rw [h] at hmem
  obtain ⟨i, -, hi⟩ := List.mem_map.1 hmem
  exact ⟨i, hi.symm⟩

/-- A definition and its helpers have different names. -/
theorem nodup_names {name : DefName} {own : List Definition} {helpers : List Function}
    (hlength : own.length ≤ 1) (hown : ∀ e ∈ own, e.name = name)
    (hnames : helpers.map (·.name) = (List.range helpers.length).map (helperName name)) :
    ((own ++ helpers.map Definition.function).map Definition.name).Nodup := by
  have hhelpers : (helpers.map Definition.function).map Definition.name =
      (List.range helpers.length).map (helperName name) := by
    rw [← hnames, List.map_map]
    rfl
  rw [List.map_append, hhelpers]
  refine List.nodup_append.2 ⟨?_, ?_, ?_⟩
  · cases own with
    | nil => exact List.nodup_nil
    | cons e own =>
      have : own = [] := List.eq_nil_of_length_eq_zero (by simpa using hlength)
      subst this
      exact List.nodup_singleton _
  · exact List.Nodup.map (fun _ _ => helperName_count_inj) List.nodup_range
  · intro a ha b hb hab
    obtain ⟨e, he, rfl⟩ := List.mem_map.1 ha
    obtain ⟨i, -, rfl⟩ := List.mem_map.1 hb
    rw [hown e he] at hab
    exact helperName_ne_self name i hab.symm

/-! ## One conversion after another -/

/-- A definition to convert, with the table that it belongs to. -/
structure Call where
  table : Table
  definition : Staged.Definition

/-- The name of what is converted. -/
def Call.name (c : Call) : DefName := c.definition.name

/-- What conversions have given so far, by call, and the table of closure bodies they share. -/
structure Session where
  outputs : List (Call × List Definition)
  closures : ClosureTable

namespace Session

/-- Nothing converted. -/
def start : Session := ⟨[], .empty⟩

/-- One more conversion. -/
def step (s : Session) (c : Call) : Session :=
  match convert c.table s.closures c.definition with
  | .ok (flat, closures) => ⟨s.outputs ++ [(c, flat)], closures⟩
  | .error _ => s

/-- The state after some conversions, in order. -/
def after (calls : List Call) : Session := calls.foldl step start

/-- All definitions given so far. -/
def emitted (s : Session) : List Definition := s.outputs.flatMap (·.2)

/-- Tags, table, helpers and captured variables fit together. -/
structure Coherent (s : Session) : Prop where
  /-- An entry of the table names one function, which restores the tag of the entry. -/
  entry : ∀ {tag name}, s.closures.bodies[tag]? = some name →
    ∃ f, (s.emitted.filter fun d => d.name = name) = [.function f] ∧
      f.restore = some (Int32.ofNat tag)
  /-- The helpers of a definition follow it and are counted. -/
  helpers : ∀ o ∈ s.outputs, ∃ (own : List Definition) (helpers : List Function),
    o.2 = own ++ helpers.map .function ∧ own.length ≤ 1 ∧ (∀ e ∈ own, e.name = o.1.name) ∧
      helpers.map (·.name) = (List.range helpers.length).map (helperName o.1.name)
  /-- The function values in a body are made for the local functions of the term it comes from, in
  order, and the tag of each is that of the body of its local function. -/
  values : ∀ o ∈ s.outputs, ∀ e ∈ o.2, ∀ body, e.body? = some body →
    ∃ t ∈ o.1.definition.parts, List.Forall₂ (fun lambda value => value.1 < s.closures.size ∧
      ∃ f, s.closures.bodies[value.1]? = some f.name ∧ .function f ∈ o.2 ∧
        IsBodyOf o.1.table lambda value.2 f) t.functions body.closures

theorem step_error {s : Session} {c : Call} {e : Error}
    (h : convert c.table s.closures c.definition = .error e) : s.step c = s := by
  rw [step, h]

theorem step_ok {s : Session} {c : Call} {flat : List Definition} {closures : ClosureTable}
    (h : convert c.table s.closures c.definition = .ok (flat, closures)) :
    s.step c = ⟨s.outputs ++ [(c, flat)], closures⟩ := by
  rw [step, h]

theorem after_concat (calls : List Call) (c : Call) :
    after (calls ++ [c]) = (after calls).step c := by
  rw [after, List.foldl_append, List.foldl_cons, List.foldl_nil, ← after]

/-- The conversions of a build are a session in which all calls have the same table. -/
theorem after_eq_flatten (table : Table) (ds : List Staged.Definition) :
    ((after (ds.map (Call.mk table))).emitted, (after (ds.map (Call.mk table))).closures) =
      ((Pipeline.flatten table .empty ds).1, (Pipeline.flatten table .empty ds).2.1) := by
  have hfold : ∀ (ds : List Staged.Definition) (s : Session),
      ((ds.map (Call.mk table)).foldl step s).emitted =
        s.emitted ++ (Pipeline.flatten table s.closures ds).1 ∧
      ((ds.map (Call.mk table)).foldl step s).closures =
        (Pipeline.flatten table s.closures ds).2.1 := by
    intro ds
    induction ds with
    | nil =>
      intro s
      exact ⟨(List.append_nil _).symm, rfl⟩
    | cons d ds ih =>
      intro s
      rw [List.map_cons, List.foldl_cons, Pipeline.flatten]
      cases hd : convert table s.closures d with
      | error e =>
        rw [step_error (c := ⟨table, d⟩) hd]
        exact ih s
      | ok r =>
        obtain ⟨hemitted, hclosures⟩ := ih ⟨s.outputs ++ [(⟨table, d⟩, r.1)], r.2⟩
        rw [step_ok (c := ⟨table, d⟩) hd, hemitted, hclosures]
        simp [emitted]
  obtain ⟨hemitted, hclosures⟩ := hfold ds start
  rw [after, hemitted, hclosures]
  rfl

/-! ### The invariant of a session -/

/-- What holds of every output, and stays when the table grows. -/
structure Holds (s : Session) (o : Call × List Definition) : Prop where
  helpers : ∃ (own : List Definition) (helpers : List Function),
    o.2 = own ++ helpers.map .function ∧ own.length ≤ 1 ∧ (∀ e ∈ own, e.name = o.1.name) ∧
      helpers.map (·.name) = (List.range helpers.length).map (helperName o.1.name)
  values : ∀ e ∈ o.2, ∀ body, e.body? = some body → ∃ t ∈ o.1.definition.parts,
    List.Forall₂ (fun lambda value => ∃ f, s.closures.bodies[value.1]? = some f.name ∧
      .function f ∈ o.2 ∧ IsBodyOf o.1.table lambda value.2 f) t.functions body.closures

/-- The outputs are those of some of the calls, in order, and every entry of the table comes from
one of them. -/
structure Invariant (calls : List Call) (s : Session) : Prop where
  sublist : (s.outputs.map (·.1)).Sublist calls
  holds : ∀ o ∈ s.outputs, s.Holds o
  entry : ∀ {tag name}, s.closures.bodies[tag]? = some name →
    ∃ o ∈ s.outputs, ∃ f, .function f ∈ o.2 ∧ f.name = name ∧
      f.restore = some (Int32.ofNat tag)

theorem Holds.of_append {s : Session} {o : Call × List Definition} (h : s.Holds o)
    (outputs : List (Call × List Definition)) (bodies : List DefName) :
    Holds ⟨outputs, s.closures.append bodies⟩ o where
  helpers := h.helpers
  values e he body hbody := by
    obtain ⟨t, ht, hvalues⟩ := h.values e he body hbody
    refine ⟨t, ht, hvalues.imp ?_⟩
    rintro lambda value ⟨f, htag, hf⟩
    obtain ⟨hlt, -⟩ := List.getElem?_eq_some_iff.1 htag
    exact ⟨f, (List.getElem?_append_left hlt).trans htag, hf⟩

/-- The entries that a conversion adds are found behind those before it. -/
theorem getElem?_append_bodies {before : ClosureTable} {bodies : List DefName} {i : Nat} :
    (before.append bodies).bodies[before.size + i]? = bodies[i]? := by
  show (before.bodies ++ bodies)[before.bodies.length + i]? = bodies[i]?
  rw [List.getElem?_append_right (Nat.le_add_right _ _), Nat.add_sub_cancel_left]

theorem Invariant.step {calls : List Call} {s : Session} (h : s.Invariant calls) (c : Call) :
    (s.step c).Invariant (calls ++ [c]) := by
  cases hc : convert c.table s.closures c.definition with
  | error e =>
    rw [step_error hc]
    exact ⟨h.sublist.trans (List.sublist_append_left _ _), h.holds, h.entry⟩
  | ok r =>
    obtain ⟨flat, closures⟩ := r
    obtain ⟨own, helpers, bodies, rfl, rfl, hout⟩ := exists_isOutcome hc
    rw [step_ok hc]
    refine ⟨?_, ?_, ?_⟩
    · rw [List.map_append]
      exact h.sublist.append_right [c]
    · intro o ho
      rcases List.mem_append.1 ho with ho | ho
      · exact (h.holds o ho).of_append _ _
      · rw [List.mem_singleton] at ho
        subst ho
        refine ⟨⟨own, helpers, rfl, hout.length_own, hout.name_own, hout.names⟩, ?_⟩
        intro e he body hbody
        obtain ⟨t, ht, hvalues⟩ := hout.values e he body hbody
        refine ⟨t, ht, hvalues.imp ?_⟩
        rintro lambda value ⟨i, f, hf, htag, hname, hlambda⟩
        refine ⟨f, ?_, List.mem_append_right _ (List.mem_map_of_mem hf), hlambda⟩
        rw [htag, getElem?_append_bodies, hname]
    · intro tag name htag
      rcases Nat.lt_or_ge tag s.closures.size with hlt | hge
      · rw [ClosureTable.append, List.getElem?_append_left hlt] at htag
        obtain ⟨o, ho, f, hf⟩ := h.entry htag
        exact ⟨o, List.mem_append_left _ ho, f, hf⟩
      · obtain ⟨i, rfl⟩ := Nat.exists_eq_add_of_le hge
        rw [getElem?_append_bodies] at htag
        obtain ⟨f, hf, hname, hrestore⟩ := hout.body htag
        exact ⟨_, List.mem_append_right _ List.mem_cons_self, f,
          List.mem_append_right _ (List.mem_map_of_mem hf), hname, hrestore⟩

theorem invariant_after (calls : List Call) : (after calls).Invariant calls := by
  induction calls using List.reverseRecOn with
  | nil => exact ⟨List.Sublist.refl _, fun _ ho => (nomatch ho), fun h => nomatch h⟩
  | append_singleton calls c ih =>
    rw [after_concat]
    exact ih.step c

/-! ### Names -/

/-- The definitions that a call gives are named after it. -/
theorem Holds.name {s : Session} {o : Call × List Definition} (h : s.Holds o) {e : Definition}
    (he : e ∈ o.2) : e.name = o.1.name ∨ ∃ i, e.name = helperName o.1.name i := by
  obtain ⟨own, helpers, hsplit, -, hown, hnames⟩ := h.helpers
  rw [hsplit] at he
  rcases List.mem_append.1 he with he | he
  · exact .inl (hown e he)
  · obtain ⟨f, hf, rfl⟩ := List.mem_map.1 he
    exact .inr (exists_helperName_of_mem hnames hf)

theorem Holds.nodup {s : Session} {o : Call × List Definition} (h : s.Holds o) :
    (o.2.map Definition.name).Nodup := by
  obtain ⟨own, helpers, hsplit, hlength, hown, hnames⟩ := h.helpers
  exact hsplit ▸ nodup_names hlength hown hnames

/-- Calls on names of their own, free of colons, give definitions of distinct names. -/
theorem Invariant.nodup_emitted {calls : List Call} {s : Session} (h : s.Invariant calls)
    (hnames : (calls.map Call.name).Nodup) (hcolon : ∀ c ∈ calls, ':' ∉ c.name.name.toList) :
    (s.emitted.map Definition.name).Nodup := by
  have hcolon' : ∀ o ∈ s.outputs, ':' ∉ o.1.name.name.toList := fun o ho =>
    hcolon _ (h.sublist.subset (List.mem_map_of_mem ho))
  have hdistinct : s.outputs.Pairwise fun o o' => o.1.name ≠ o'.1.name := by
    have hsub := (h.sublist.map Call.name).nodup hnames
    rw [List.map_map, List.nodup_iff_pairwise_ne, List.pairwise_map] at hsub
    exact hsub
  rw [emitted, List.map_flatMap, List.nodup_flatMap]
  refine ⟨fun o ho => (h.holds o ho).nodup, ?_⟩
  refine hdistinct.imp_of_mem fun {o o'} ho ho' hne => ?_
  intro name hname hname'
  obtain ⟨e, he, rfl⟩ := List.mem_map.1 hname
  obtain ⟨e', he', hee'⟩ := List.mem_map.1 hname'
  have hc := hcolon' o ho
  have hc' := hcolon' o' ho'
  rcases (h.holds o ho).name he with hn | ⟨i, hn⟩ <;>
    rcases (h.holds o' ho').name he' with hn' | ⟨j, hn'⟩ <;> rw [hn, hn'] at hee'
  · exact hne hee'.symm
  · exact helperName_ne hc hee'
  · exact helperName_ne hc' hee'.symm
  · exact hne (helperName_inj hc' hc hee').1.symm

/-- Among definitions of distinct names a name picks out one. -/
theorem filter_name_eq {ds : List Definition} (hnames : (ds.map Definition.name).Nodup)
    {d : Definition} (hd : d ∈ ds) : (ds.filter fun e => e.name = d.name) = [d] := by
  induction ds with
  | nil => cases hd
  | cons e ds ih =>
    rw [List.map_cons, List.nodup_cons] at hnames
    rcases List.mem_cons.1 hd with rfl | hd
    · have hrest : (ds.filter fun e => e.name = d.name) = [] := by
        rw [List.filter_eq_nil_iff]
        intro e he
        simpa using fun h : e.name = d.name => hnames.1 (h ▸ List.mem_map_of_mem he)
      rw [List.filter_cons_of_pos (by simp), hrest]
    · have hne : e.name ≠ d.name := fun h => hnames.1 (h ▸ List.mem_map_of_mem hd)
      rw [List.filter_cons_of_neg (by simpa using hne), ih hnames.2 hd]

end Session

/-- **Closure tags stay coherent.** After any conversions, some of which may fail, of definitions of
distinct names without colons that share one table: the tags, the table, the helpers and the
captured variables fit together, a conversion that fails leaves everything as it is, and one that
succeeds only adds to the table. -/
theorem coherent_after (calls : List Call) (hnames : (calls.map Call.name).Nodup)
    (hcolon : ∀ c ∈ calls, ':' ∉ c.name.name.toList) :
    (Session.after calls).Coherent ∧ ∀ c,
      (∀ e, convert c.table (Session.after calls).closures c.definition = .error e →
        (Session.after calls).step c = Session.after calls) ∧
      ∀ flat closures,
        convert c.table (Session.after calls).closures c.definition = .ok (flat, closures) →
          (Session.after calls).step c =
            ⟨(Session.after calls).outputs ++ [(c, flat)], closures⟩ ∧
          (Session.after calls).closures.bodies <+: closures.bodies := by
  have hinv := Session.invariant_after calls
  have hnodup := hinv.nodup_emitted hnames hcolon
  refine ⟨⟨?_, fun o ho => (hinv.holds o ho).helpers, ?_⟩, fun c => ⟨?_, ?_⟩⟩
  · intro tag name htag
    obtain ⟨o, ho, f, hf, rfl, hrestore⟩ := hinv.entry htag
    exact ⟨f, Session.filter_name_eq hnodup (List.mem_flatMap.2 ⟨o, ho, hf⟩), hrestore⟩
  · intro o ho e he body hbody
    obtain ⟨t, ht, hvalues⟩ := (hinv.holds o ho).values e he body hbody
    refine ⟨t, ht, hvalues.imp ?_⟩
    rintro lambda value ⟨f, htag, hf⟩
    obtain ⟨hlt, -⟩ := List.getElem?_eq_some_iff.1 htag
    exact ⟨hlt, f, htag, hf⟩
  · exact fun e he => Session.step_error he
  · exact fun flat closures hok => ⟨Session.step_ok hok, convert_extends hok⟩

/-- A function that makes a function that makes one of two functions, one that fails after its first
function value, a function that captures its parameter, and a resource with a function in it. -/
def makers : List Call := [
  ⟨.empty, .function ⟨[], ⟨["main"], "f"⟩, .var (Staged.Pattern.plain .int) ⟨"x", 0⟩, .int,
    .ofApply (.ofApply (.ofLambda (.var (Staged.Pattern.plain .int) ⟨"y", 1⟩)
      (.ofCond (.test .bool (.var .int ⟨"y", 1⟩) (.int (Staged.Pattern.plain .int) 3))
        (.ofLambda (.var (Staged.Pattern.plain .int) ⟨"x", 2⟩) (.var .int ⟨"y", 1⟩))
        (.ofLambda (.var (Staged.Pattern.plain .int) ⟨"z", 2⟩) (.var .int ⟨"x", 0⟩))))
      (.ofLiteral (.int 3))) (.ofLiteral (.int 4))⟩⟩,
  ⟨.empty, .function ⟨[], ⟨["main"], "broken"⟩, .var (Staged.Pattern.plain .int) ⟨"x", 0⟩, .int,
    .ofTuple [.ofLambda (.var (Staged.Pattern.plain .int) ⟨"y", 1⟩) (.var .int ⟨"x", 0⟩),
      .ofQuote (.ofLiteral (.int 1))]⟩⟩,
  ⟨.empty, .function ⟨[], ⟨["main"], "g"⟩, .var (Staged.Pattern.plain .bool) ⟨"b", 0⟩,
    .function .int .bool,
    .ofLambda (.var (Staged.Pattern.plain .int) ⟨"y", 1⟩) (.var .bool ⟨"b", 0⟩)⟩⟩,
  ⟨.empty, .resource ⟨[], default, ⟨["main"], "r"⟩,
    .ofLambda (.var (Staged.Pattern.plain .int) ⟨"y", 0⟩) (.var .int ⟨"y", 0⟩)⟩⟩]

theorem coherent_after_makers :
    (makers.map Call.name).Nodup ∧ (∀ c ∈ makers, ':' ∉ c.name.name.toList) ∧
    (Session.after makers).outputs.map (fun o => o.1.name.name) = ["f", "g", "r"] ∧
    (Session.after makers).closures.bodies.map (·.name) = ["f:0", "f:2", "f:4", "g:0", "r:0"] ∧
    (Session.after makers).Coherent := by
  have hnames : (makers.map Call.name).Nodup := by decide
  have hcolon : ∀ c ∈ makers, ':' ∉ c.name.name.toList := by decide +kernel
  refine ⟨hnames, hcolon, by decide +kernel, by decide +kernel, ?_⟩
  exact (coherent_after makers hnames hcolon).1

end Flat

namespace Pipeline

open Flat (ClosureTable)
open Staged (Table)

/-- Every flat definition comes from a conversion, with all that conversion gave. -/
theorem exists_of_mem_flatten {table : Table} {ds : List Staged.Definition}
    {closures : ClosureTable} {e : Flat.Definition} (he : e ∈ (flatten table closures ds).1) :
    ∃ d ∈ ds, ∃ before after flat, Flat.convert table before d = .ok (flat, after) ∧ e ∈ flat ∧
      flat ⊆ (flatten table closures ds).1 := by
  induction ds generalizing closures with
  | nil => cases he
  | cons d ds ih =>
    rw [flatten] at he ⊢
    cases hd : Flat.convert table closures d with
    | error err =>
      rw [hd] at he
      obtain ⟨d', hd', h⟩ := ih he
      exact ⟨d', List.mem_cons_of_mem _ hd', h⟩
    | ok r =>
      rw [hd] at he
      rcases List.mem_append.1 he with he | he
      · exact ⟨d, List.mem_cons_self, closures, r.2, r.1, hd, he, List.subset_append_left _ _⟩
      · obtain ⟨d', hd', before, after, flat, hflat, hmem, hsub⟩ := ih he
        exact ⟨d', List.mem_cons_of_mem _ hd', before, after, flat, hflat, hmem,
          fun e he => List.mem_append_right _ (hsub he)⟩

end Pipeline

end Stagecraft
