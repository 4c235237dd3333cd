import Stagecraft.Proofs.EmissionRelations
import Stagecraft.Proofs.Failures

/-!
# What a build calls

Calls come from four places: calls of the source, applications, the two clauses of a conditional and
the guards of the dispatcher. What they call may be missing from a build, because it was staged away
or failed on the way; then the failure of the caller or of what it calls is reported. So in a build
that reports none every call reaches a function of the build or a built-in one
(`closed_under_calls`).
-/

namespace Stagecraft.Target

/-- The locations that an instruction calls, under a condition or not. The line of a raw command is
not looked at. -/
def Instruction.called : Instruction → List Location
  | .call l => [l]
  | .ifScore _ _ _ body => body.called
  | .append .. | .set .. | .remove _ | .setScore .. | .storeScore .. | .storeData .. | .comment _
  | .raw _ => []

/-- The locations that the instructions of an artifact call. -/
def Artifact.called : Artifact → List Location
  | .function _ instructions => instructions.flatMap Instruction.called
  | .resource .. => []

end Stagecraft.Target

/-! ## Emission -/

namespace Stagecraft.Emit

open Target (Instruction Location)

theorem called_of_isPlain : ∀ {i : Instruction}, isPlain i = true → i.called = []
  | .ifScore _ _ _ body, h => called_of_isPlain (i := body) h
  | .append .., _ | .set .., _ | .remove _, _ | .setScore .., _ | .storeScore .., _
  | .storeData .., _ | .raw _, _ => rfl

/-- All calls among instructions are to the locations of certain names. -/
def CallOnly (nspace : String) (named : DefName → Prop) (is : List Instruction) : Prop :=
  ∀ i ∈ is, ∀ l ∈ i.called, ∃ name, named name ∧ l = .ofName nspace name

theorem callOnly_singleton {nspace : String} {named : DefName → Prop} {i : Instruction}
    (h : ∀ l ∈ i.called, ∃ name, named name ∧ l = .ofName nspace name) :
    CallOnly nspace named [i] := by
  intro j hj
  exact List.mem_singleton.1 hj ▸ h

theorem relates_callOnly (options : Options) (named : DefName → Prop) :
    Relates options options id (fun _ => True) named fun is _ =>
      CallOnly options.nspace named is where
  nil := fun _ h => nomatch h
  append h h' := List.forall_mem_append.2 ⟨h, h'⟩
  plain h := callOnly_singleton fun l hl => by
    rw [called_of_isPlain h] at hl
    cases hl
  remark line := by
    unfold remark
    split
    · exact callOnly_singleton fun _ hl => nomatch hl
    · exact fun _ hi => nomatch hi
  record _ := callOnly_singleton fun _ hl => nomatch hl
  call hname := callOnly_singleton fun _ hl => ⟨_, hname, List.mem_singleton.1 hl⟩
  jump _ hname := callOnly_singleton fun _ hl => ⟨_, hname, List.mem_singleton.1 hl⟩

/-- The code of a function calls what the function does. -/
theorem callOnly_of_function {options : Options} {f : Flat.Function} {is : List Instruction}
    (h : function options f = .ok is) :
    CallOnly options.nspace (fun name => ∃ c ∈ callSites f.body, c.name = name) is := by
  have hexit : CallOnly options.nspace (fun name => ∃ c ∈ callSites f.body, c.name = name)
      (exit f.restore) := by
    intro i hi l hl
    rw [exit, Option.toList_map] at hi
    obtain ⟨n, -, rfl⟩ := List.mem_map.1 hi
    cases hl
  obtain ⟨e, hfail, -⟩ | ⟨js, _, hjs, -, hcalls⟩ :=
    (relates_callOnly options _).function f f.restore (fun c hc => ⟨c, hc, rfl⟩)
      (fun _ _ => trivial) hexit
  · rw [h] at hfail
    cases hfail
  · rw [h] at hjs
    cases hjs
    exact hcalls

end Stagecraft.Emit

/-! ## Conversion -/

namespace Stagecraft.Flat

open Staged (Table)
open Emit (callSites callSitesOfAll callSitesOfFields)

section

variable {table : Table} {R : Progress} {site : Site}

/-- A name that a converted term may call: that of the dispatcher, of a function of the table or of
a helper. -/
def Callable (table : Table) (helpers : List Function) (name : DefName) : Prop :=
  name = dispatcher ∨ (table.function? name).isSome ∨ ∃ f ∈ helpers, f.name = name

/-- A function calls what it may. -/
def CallsKnown (table : Table) (helpers : List Function) (t : Term) : Prop :=
  ∀ c ∈ callSites t, Callable table helpers c.name

theorem callSites_argument (S : Bindings) : callSites S.argument = [] := by
  have hvars : ∀ vars : List (Var × Ty),
      callSitesOfAll (vars.map fun e => .var e.2 e.1) = [] := by
    intro vars
    induction vars with
    | nil => rfl
    | cons v vars ih =>
      rw [List.map_cons, callSitesOfAll, ih, callSites, List.nil_append]
  rw [Bindings.argument, Term.ofTuple, callSites, hvars]

mutual

/-- A converted term calls what it may, and so does every helper. -/
theorem registers_callsKnown {pre : Prop} : ∀ (t : Staged.Term) (S : Bindings),
    Registers R site (fun f => CallsKnown table R.helpers f.body) pre
      (Term.ofStaged table site S t) (CallsKnown table R.helpers)
  | .literal t l, S => by
    unfold Term.ofStaged
    exact Registers.lift.bind fun _ => .ret fun _ _ hc => nomatch hc
  | .array t kind es, S => by
    unfold Term.ofStaged
    exact Registers.lift.bind fun _ => (registersAll_callsKnown es S).bind fun es' =>
      .ret fun hpre => hpre.2
  | .list t es, S => by
    unfold Term.ofStaged
    exact Registers.lift.bind fun _ => (registersAll_callsKnown es S).bind fun es' =>
      .ret fun hpre => hpre.2
  | .compound t fields, S => by
    unfold Term.ofStaged
    exact Registers.lift.bind fun _ => (registersFields_callsKnown fields S).bind fun fields' =>
      .ret fun hpre => hpre.2
  | .ref t e, S => by
    unfold Term.ofStaged
    exact Registers.lift.bind fun _ => (registers_callsKnown e S).bind fun e' =>
      .ret fun hpre => hpre.2
  | .tuple t es, S => by
    unfold Term.ofStaged
    exact Registers.lift.bind fun _ => (registersAll_callsKnown es S).bind fun es' =>
      .ret fun hpre => hpre.2
  | .lambda t p b, S => by
    unfold Term.ofStaged
    refine Registers.lift.bind fun τ => Registers.lift.bind fun captures => ?_
    split
    · next σ τ =>
      refine Registers.lift.bind fun ⟨p', inner⟩ => ?_
      refine (registers_callsKnown b (bindCaptures inner captures).2).bind fun b' => ?_
      exact (Registers.addClosure fun hpre _ _ => hpre.2).bind fun tag =>
        .ret fun _ _ hc => nomatch hc
    · exact .throw
  | .apply t f a, S => by
    unfold Term.ofStaged
    refine Registers.lift.bind fun _ => (registers_callsKnown f S).bind fun f' => ?_
    refine (registers_callsKnown a S).bind fun a' => .ret ?_
    rintro ⟨⟨_, hf⟩, ha⟩
    simp only [CallsKnown, Term.ofTuple, callSites, callSitesOfAll, List.append_nil]
    exact List.forall_mem_cons.2 ⟨.inl rfl, List.forall_mem_append.2 ⟨ha, hf⟩⟩
  | .cond t c a b, S => by
    unfold Term.ofStaged
    refine Registers.lift.bind fun _ => Registers.lift.bind fun _ => Registers.lift.bind fun _ => ?_
    refine (registers_callsKnown c S).bind fun c' => (registers_callsKnown a S).bind fun a' => ?_
    refine (Registers.addClause fun hpre _ => hpre.2).bind fun thenName => ?_
    refine (registers_callsKnown b S).bind fun b' => ?_
    refine (Registers.addClause fun hpre _ => hpre.2).bind fun elseName => .ret ?_
    rintro ⟨⟨⟨⟨⟨_, hc⟩, _⟩, hthen⟩, _⟩, helse⟩
    rw [CallsKnown, callSites, callSites_argument, List.append_nil]
    exact List.forall_mem_cons.2 ⟨.inr (.inr hthen), List.forall_mem_cons.2
      ⟨.inr (.inr helse), hc⟩⟩
  | .letIn t p i b, S => by
    unfold Term.ofStaged
    refine Registers.lift.bind fun _ => (registers_callsKnown i S).bind fun i' => ?_
    refine Registers.lift.bind fun ⟨p', inner⟩ =>
      (registers_callsKnown b inner).bind fun b' => .ret ?_
    rintro ⟨⟨⟨_, hi⟩, _⟩, hb⟩
    exact List.forall_mem_append.2 ⟨hi, hb⟩
  | .var t v, S => by
    unfold Term.ofStaged
    exact Registers.lift.bind fun _ => Registers.lift.bind fun ⟨v', σ⟩ =>
      .ret fun _ _ hc => nomatch hc
  | .call t name a, S => by
    unfold Term.ofStaged
    refine Registers.lift.bind fun _ => ?_
    split
    · exact .throw
    · next hknown =>
      refine (registers_callsKnown a S).bind fun a' => .ret fun hpre => ?_
      refine List.forall_mem_cons.2 ⟨?_, hpre.2⟩
      -- the check of the conversion: a function of the table, or the dispatcher
      by_cases hname : name = dispatcher
      · exact .inl hname
      · refine .inr (.inl (Option.isSome_iff_ne_none.2 fun hnone => hknown ?_))
        simp [hnone, hname]
  | .test t e p, S => by
    unfold Term.ofStaged
    exact Registers.lift.bind fun _ => (registers_callsKnown e S).bind fun e' =>
      Registers.lift.bind fun ⟨p', inner⟩ => .ret fun hpre => hpre.1.2
  | .command t line, S => by
    unfold Term.ofStaged
    exact Registers.lift.bind fun _ => .ret fun _ _ hc => nomatch hc
  | .quote .., S => by
    unfold Term.ofStaged
    exact Registers.lift.bind fun _ => .throw
  | .splice .., S => by
    unfold Term.ofStaged
    exact Registers.lift.bind fun _ => .throw
  | .hole .., S => by
    unfold Term.ofStaged
    exact Registers.lift.bind fun _ => .throw

theorem registersAll_callsKnown {pre : Prop} : ∀ (ts : List Staged.Term) (S : Bindings),
    Registers R site (fun f => CallsKnown table R.helpers f.body) pre
      (Term.ofStagedAll table site S ts) fun ts' =>
        ∀ c ∈ callSitesOfAll ts', Callable table R.helpers c.name
  | [], S => by
    unfold Term.ofStagedAll
    exact .ret fun _ _ hc => nomatch hc
  | t :: ts, S => by
    unfold Term.ofStagedAll
    refine (registers_callsKnown t S).bind fun t' =>
      (registersAll_callsKnown ts S).bind fun ts' => .ret ?_
    rintro ⟨⟨_, ht⟩, hts⟩
    exact List.forall_mem_append.2 ⟨ht, hts⟩

theorem registersFields_callsKnown {pre : Prop} : ∀ (fields : List (String × Staged.Term))
    (S : Bindings), Registers R site (fun f => CallsKnown table R.helpers f.body) pre
      (Term.ofStagedFields table site S fields) fun fields' =>
        ∀ c ∈ callSitesOfFields fields', Callable table R.helpers c.name
  | [], S => by
    unfold Term.ofStagedFields
    exact .ret fun _ _ hc => nomatch hc
  | (key, t) :: rest, S => by
    unfold Term.ofStagedFields
    refine (registers_callsKnown t S).bind fun t' =>
      (registersFields_callsKnown rest S).bind fun rest' => .ret ?_
    rintro ⟨⟨_, ht⟩, hrest⟩
    exact List.forall_mem_append.2 ⟨ht, hrest⟩

end

theorem registers_callsKnown_definition {pre : Prop} (d : Staged.Definition) :
    Registers R site (fun f => CallsKnown table R.helpers f.body) pre
      (Definition.ofStaged table site d) fun own =>
        ∀ e ∈ own, ∀ body, e.body? = some body → CallsKnown table R.helpers body := by
  rcases d with r | f | _
  · unfold Definition.ofStaged
    refine (registers_callsKnown r.body .empty).bind fun body =>
      Registers.lift.bind fun marks => .ret ?_
    rintro ⟨⟨_, hbody⟩, _⟩ e he _ he'
    rw [List.mem_singleton] at he
    subst he
    cases he'
    exact hbody
  · unfold Definition.ofStaged
    refine Registers.bind (Q := fun e => ∀ body, e.body? = some body →
      CallsKnown table R.helpers body) ?_ fun e => .ret ?_
    · unfold Definition.ofStagedFunction
      refine Registers.lift.bind fun marks => ?_
      split
      · refine Registers.lift.bind fun param => Registers.lift.bind fun result => .ret ?_
        exact fun _ _ hbody => nomatch hbody
      · refine Registers.lift.bind fun ⟨binder, scope⟩ => ?_
        refine (registers_callsKnown f.body scope).bind fun body =>
          Registers.lift.bind fun result => .ret ?_
        rintro ⟨⟨_, hbody⟩, _⟩ _ ⟨⟩
        exact hbody
    · rintro ⟨_, he⟩ e' he'
      exact List.mem_singleton.1 he' ▸ he
  · unfold Definition.ofStaged
    exact .ret fun _ e he => nomatch he

end

/-- What a conversion gives calls the dispatcher, functions of the table and what else it gives. -/
theorem callable_of_convert {table : Table} {before after : ClosureTable} {d : Staged.Definition}
    {flat : List Definition} (h : convert table before d = .ok (flat, after)) {e : Definition}
    (he : e ∈ flat) {body : Term} (hbody : e.body? = some body) : ∀ c ∈ callSites body,
      c.name = dispatcher ∨ (table.function? c.name).isSome ∨
        ∃ f, .function f ∈ flat ∧ f.name = c.name := by
  unfold convert at h
  rw [Except.bind_ok] at h
  obtain ⟨⟨own, progress⟩, hrun, h⟩ := h
  cases h
  have hreg := @registers_callsKnown_definition table progress ⟨d.name, before.size⟩ True d
  obtain ⟨hkept, hown⟩ := (hreg hrun).2 trivial (.refl progress)
    ⟨Progress.numbered_empty _, fun f hf => nomatch hf⟩
  have hcalls : CallsKnown table progress.helpers body := by
    rcases List.mem_append.1 he with he | he
    · exact hown e he body hbody
    · obtain ⟨f, hf, rfl⟩ := List.mem_map.1 he
      cases hbody
      exact hkept.fine f hf
  intro c hc
  refine (hcalls c hc).imp_right fun hknown => hknown.imp_right ?_
  rintro ⟨f, hf, hname⟩
  exact ⟨f, List.mem_append_right _ (List.mem_map_of_mem hf), hname⟩

/-- A function that is not built in becomes a function of its name. -/
theorem exists_function_of_convert {table : Table} {before after : ClosureTable}
    {f : Staged.Function} {flat : List Definition} (hf : f.has .builtin = false)
    (h : convert table before (.function f) = .ok (flat, after)) :
    ∃ g, .function g ∈ flat ∧ g.name = f.name := by
  unfold convert Definition.ofStaged Definition.ofStagedFunction at h
  simp only [hf, Bool.false_eq_true, if_false] at h
  rw [Except.bind_ok] at h
  obtain ⟨⟨own, progress⟩, hrun, h⟩ := h
  cases h
  simp only [StateT.run_bind, Except.bind_ok] at hrun
  obtain ⟨_, ⟨_, -, _, -, _, -, _, -, he⟩, hrun⟩ := hrun
  cases he
  cases hrun
  exact ⟨_, List.mem_append_left _ List.mem_cons_self, rfl⟩

end Stagecraft.Flat

/-! ## Builds -/

/-- A function is found under its own name. -/
theorem Stagecraft.Staged.Table.mem_of_function? {table : Table} {name : DefName} {f : Function}
    (h : table.function? name = some f) : .function f ∈ table.definitions ∧ f.name = name := by
  unfold function? at h
  split at h
  · next hfind =>
    cases h
    have hname := List.find?_some hfind
    exact ⟨List.mem_of_find?_eq_some hfind, of_decide_eq_true hname⟩
  · cases h

namespace Stagecraft.Pipeline

open Staged (Table)
open Flat (ClosureTable)
open Target (Artifact Location)

/-- Where no conversion fails, every definition is converted to some of the flat definitions. -/
theorem exists_convert {table : Table} {ds : List Staged.Definition} {closures : ClosureTable}
    (hclean : (flatten table closures ds).2.2 = []) {d : Staged.Definition} (hd : d ∈ ds) :
    ∃ before after flat, Flat.convert table before d = .ok (flat, after) ∧
      flat ⊆ (flatten table closures ds).1 := by
  induction ds generalizing closures with
  | nil => cases hd
  | cons d' ds ih =>
    rw [flatten] at hclean ⊢
    cases hd' : Flat.convert table closures d' with
    | error e =>
      rw [hd'] at hclean
      cases hclean
    | ok r =>
      rw [hd'] at hclean
      rcases List.mem_cons.1 hd with rfl | hd
      · exact ⟨closures, r.2, r.1, hd', List.subset_append_left _ _⟩
      · obtain ⟨before, after, flat, hflat, hsub⟩ := ih hclean hd
        exact ⟨before, after, flat, hflat, fun e he => List.mem_append_right _ (hsub he)⟩

/-- Where no conversion fails, a flat function calls the dispatcher, flat functions and built-in
ones that were not converted. -/
theorem callee_of_flatten {table : Table} {ds : List Staged.Definition} {closures : ClosureTable}
    (hds : table.definitions = ds) (hclean : (flatten table closures ds).2.2 = [])
    {f : Flat.Function} (hf : .function f ∈ (flatten table closures ds).1) :
    ∀ c ∈ Emit.callSites f.body, c.name = Flat.dispatcher ∨
      (∃ g, .function g ∈ (flatten table closures ds).1 ∧ g.name = c.name) ∨
      ∃ g, .function g ∈ ds ∧ g.has .builtin = true ∧ g.name = c.name := by
  obtain ⟨d, hd, before, after, flat, hconvert, hmem, hflat⟩ := exists_of_mem_flatten hf
  intro c hc
  rcases Flat.callable_of_convert hconvert hmem rfl c hc with hname | hname | ⟨g, hg, hname⟩
  · exact .inl hname
  · obtain ⟨g, hg⟩ := Option.isSome_iff_exists.1 hname
    obtain ⟨hg, hname⟩ := Table.mem_of_function? hg
    rw [hds] at hg
    cases hbuiltin : g.has .builtin with
    | true => exact .inr (.inr ⟨g, hg, hbuiltin, hname⟩)
    | false =>
      obtain ⟨before', after', flat', hconvert', hflat'⟩ := exists_convert hclean hg
      obtain ⟨g', hg', hname'⟩ := Flat.exists_function_of_convert hbuiltin hconvert'
      exact .inr (.inl ⟨g', hflat' hg', hname'.trans hname⟩)
  · exact .inr (.inl ⟨g, hflat hg, hname⟩)

section

variable {cx : Eval.Context} {fuel : Nat}

/-- What is staged is the residual of a definition. -/
theorem exists_of_mem_residuals? {ds staged : List Staged.Definition} {failures : Failures}
    (h : residuals? cx fuel ds = some (staged, failures)) {r : Staged.Definition}
    (hr : r ∈ staged) : ∃ d ∈ ds, Residual.residual? cx fuel d = .ok (some r) := by
  induction ds generalizing staged failures with
  | nil =>
    cases h
    cases hr
  | cons d ds ih =>
    rw [residuals?] at h
    cases hrest : residuals? cx fuel ds with
    | none =>
      rw [hrest] at h
      split at h <;> cases h
    | some p =>
      rw [hrest] at h
      have hlater : r ∈ p.1 → ∃ d' ∈ d :: ds, Residual.residual? cx fuel d' = .ok (some r) :=
        fun hr => by
          obtain ⟨d', hd', h⟩ := ih hrest hr
          exact ⟨d', List.mem_cons_of_mem _ hd', h⟩
      split at h
      · cases h
        exact hlater hr
      · next hd =>
        cases h
        rcases List.mem_cons.1 hr with rfl | hr
        · exact ⟨d, List.mem_cons_self, hd⟩
        · exact hlater hr
      · cases h
        exact hlater hr
      · cases h

/-- A built-in function among what is staged is one of the table. -/
theorem exists_builtin_of_mem_residuals? {ds staged : List Staged.Definition} {failures : Failures}
    (h : residuals? cx fuel ds = some (staged, failures)) {g : Staged.Function}
    (hg : .function g ∈ staged) (hbuiltin : g.has .builtin = true) :
    ∃ f, .function f ∈ ds ∧ f.has .builtin = true ∧ f.name = g.name := by
  obtain ⟨d, hd, hresidual⟩ := exists_of_mem_residuals? h hg
  obtain rfl | ⟨f, body, rfl, hbody⟩ := eq_of_residual? hresidual
  · exact ⟨g, hd, hbuiltin, rfl⟩
  · cases hbody
    exact ⟨f, hd, hbuiltin, rfl⟩

end

/-- **A build without failures is closed under calls.** Every location that an instruction of the
build calls, under a condition or not, in a function, a helper or the dispatcher, is that of a
function of the build or of a function of the table that is marked as built in. -/
theorem closed_under_calls {fuel : Nat} {settings : Settings} {natives : Eval.Natives}
    {table : Table} {b : Build} (hbuild : build? fuel settings natives table = some b)
    (hclean : b.isClean = true) {a : Artifact} (ha : a ∈ b.artifacts) {l : Location}
    (hl : l ∈ a.called) :
    (∃ is, .function l is ∈ b.artifacts) ∨
      ∃ f, .function f ∈ table.definitions ∧ f.has .builtin = true ∧
        l = .ofName settings.nspace f.name := by
  obtain ⟨staged, failures, hstaged, hsub, hdefinitions, hclosures, hartifacts, hfailures⟩ :=
    phases_of_build? hbuild
  rw [Build.isClean, List.isEmpty_iff, hfailures, List.append_eq_nil_iff,
    List.append_eq_nil_iff] at hclean
  obtain ⟨⟨-, hconverted⟩, hemitted⟩ := hclean
  -- every flat function and the dispatcher stand where they belong
  have hpacked : ∀ g, .function g ∈ (flatten (.ofList staged) .empty staged).1 →
      ∃ is, .function (.ofName settings.nspace g.name) is ∈ b.artifacts := by
    intro g hg
    obtain ⟨is, -, his⟩ := mem_artifacts hemitted hg
    exact ⟨is, hartifacts ▸ List.mem_append_left _ his⟩
  have hdispatcher : ∃ is, .function (.ofName settings.nspace Flat.dispatcher) is ∈ b.artifacts :=
    ⟨_, hartifacts ▸ List.mem_append_right _ List.mem_cons_self⟩
  rw [hartifacts] at ha
  rcases List.mem_append.1 ha with ha | ha
  · obtain ⟨e, he, hemit⟩ := exists_of_mem_artifacts ha
    rcases e with f | _ | r
    · rw [Emit.artifact?, Except.bind_ok] at hemit
      obtain ⟨is, his, hemit⟩ := hemit
      cases hemit
      obtain ⟨i, hi, hl⟩ := List.mem_flatMap.1 hl
      obtain ⟨_, ⟨c, hc, rfl⟩, rfl⟩ := Emit.callOnly_of_function his i hi l hl
      rcases callee_of_flatten hdefinitions hconverted he c hc with
        hname | ⟨g, hg, hname⟩ | ⟨g, hg, hbuiltin, hname⟩
      · exact .inl (hname ▸ hdispatcher)
      · exact .inl (hname ▸ hpacked g hg)
      · obtain ⟨f', hf', hbuiltin', hname'⟩ := exists_builtin_of_mem_residuals? hstaged hg hbuiltin
        exact .inr ⟨f', hf', hbuiltin', congrArg (Location.ofName _) (hname'.trans hname).symm⟩
    · cases hemit
    · rw [Emit.artifact?, Except.bind_ok] at hemit
      obtain ⟨tree, -, hemit⟩ := hemit
      cases hemit
      cases hl
  · rw [List.mem_singleton] at ha
    subst ha
    obtain ⟨i, hi, hl⟩ := List.mem_flatMap.1 hl
    rcases List.mem_cons.1 hi with rfl | hi
    · cases hl
    · -- a guard calls a body of the table of closure bodies, which is a helper
      rw [Flat.ClosureTable.tagged, List.map_map] at hi
      obtain ⟨⟨name, tag⟩, hmem, rfl⟩ := List.mem_map.1 hi
      rcases List.mem_singleton.1 hl with rfl
      have hbody : b.closures.bodies[tag]? = some name := List.mem_zipIdx_iff_getElem?.1 hmem
      rw [hclosures] at hbody
      obtain ⟨g, hg, rfl, -⟩ := exists_body (.ofList staged) staged hbody
      exact .inl (hpacked g hg)

/-- A built-in function, a function that calls it, a static one, which is staged away together with
the splice that calls it, and one with a conditional that applies a local function or calls another
one. -/
def callers : Table := .ofList [
  .function ⟨[.builtin], ⟨["main"], "tell"⟩, .var (Staged.Pattern.plain .int) ⟨"x", 0⟩, .int,
    .var .int ⟨"x", 0⟩⟩,
  .function ⟨[], ⟨["main"], "g"⟩, .var (Staged.Pattern.plain .int) ⟨"x", 0⟩, .int,
    .call .int ⟨["main"], "tell"⟩ (.var .int ⟨"x", 0⟩)⟩,
  .function ⟨[.static], ⟨["main"], "m"⟩, .var (Staged.Pattern.plain .int) ⟨"x", 0⟩, .code .int,
    .ofQuote (.ofLiteral (.int 2))⟩,
  .function ⟨[], ⟨["main"], "f"⟩, .var (Staged.Pattern.plain .int) ⟨"x", 0⟩, .int,
    .ofCond (.ofTest (.var .int ⟨"x", 0⟩) (.int (Staged.Pattern.plain .int) 3))
      (.ofApply (.ofLambda (.var (Staged.Pattern.plain .int) ⟨"y", 1⟩)
          (.call .int ⟨["main"], "tell"⟩ (.var .int ⟨"y", 1⟩)))
        (.splice .int (.call (.code .int) ⟨["main"], "m"⟩ (.ofLiteral (.int 2)))))
      (.call .int ⟨["main"], "g"⟩ (.var .int ⟨"x", 0⟩))⟩]

theorem closed_under_calls_callers : ∃ b, build? 20 .standard .prelude callers = some b ∧
    b.isClean = true ∧
    b.artifacts.map (fun a => (a.location.path, a.called.map Location.path)) =
      [("main/g", ["main/tell"]), ("main/f", ["main/f.1m1", "main/f.1m2"]),
        ("main/f.1m0", ["main/tell"]), ("main/f.1m1", ["mcx/dispatch"]),
        ("main/f.1m2", ["main/g"]), ("mcx/dispatch", ["main/f.1m0"])] ∧
    ∀ a ∈ b.artifacts, ∀ l ∈ a.called, (∃ is, .function l is ∈ b.artifacts) ∨
      ∃ f, .function f ∈ callers.definitions ∧ f.has .builtin = true ∧
        l = .ofName "minecraft" f.name := by
  have hsome : (build? 20 .standard .prelude callers).isSome := by decide +kernel
  obtain ⟨b, hb⟩ := Option.isSome_iff_exists.1 hsome
  have hall : (build? 20 .standard .prelude callers).all fun b => decide (b.isClean = true ∧
      b.artifacts.map (fun a => (a.location.path, a.called.map Location.path)) =
        [("main/g", ["main/tell"]), ("main/f", ["main/f.1m1", "main/f.1m2"]),
          ("main/f.1m0", ["main/tell"]), ("main/f.1m1", ["mcx/dispatch"]),
          ("main/f.1m2", ["main/g"]), ("mcx/dispatch", ["main/f.1m0"])]) := by decide +kernel
  rw [hb, Option.all_some, decide_eq_true_eq] at hall
  obtain ⟨hclean, hcalls⟩ := hall
  exact ⟨b, hb, hclean, hcalls, fun a ha l hl => closed_under_calls hb hclean ha hl⟩

end Stagecraft.Pipeline
