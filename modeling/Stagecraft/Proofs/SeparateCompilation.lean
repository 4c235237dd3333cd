import Stagecraft.Proofs.EmissionRelations
import Stagecraft.Proofs.Interfaces

/-!
# Separate compilation

A definition is compiled without the bodies of others. What comes out depends on them in one way
only: how many closure bodies were converted before is the first tag of its own. So conversions
against tables with the same interfaces, which start from any two tables of closure bodies, give the
same definitions up to a shift of the tags and of the values that closure bodies restore
(`Flat.shifts_convert`), and the same instructions up to that shift (`Emit.artifact?_shift`).

The argument for the conversion is one on two runs: `Flat.Shifts` relates them step by step, and the
helpers that the second one has split off are at each step those of the first one, shifted.
-/

namespace Stagecraft.Flat

open Staged (Table)

/-! ## Shifted definitions -/

/-- A tag at a distance. -/
def shiftTag (k : Int) (tag : Nat) : Nat := (tag + k).toNat

/-- A tag is shifted as the 32-bit number it becomes. -/
theorem ofNat_shiftTag {k : Int} {tag : Nat} (h : 0 ≤ tag + k) :
    Int32.ofNat (shiftTag k tag) = Int32.ofNat tag + Int32.ofInt k := by
  rw [← Int32.ofInt_eq_ofNat, shiftTag, Int.toNat_of_nonneg h, Int32.ofInt_add,
    Int32.ofInt_eq_ofNat]

/-- The function with its tags shifted, and the value that it restores if it is one of some closure
bodies. -/
def Function.shift (k : Int) (bodies : List DefName) (f : Function) : Function :=
  { f with
    body := f.body.mapTags (shiftTag k)
    restore := if f.name ∈ bodies then f.restore.map (· + Int32.ofInt k) else f.restore }

/-- The definition with its tags shifted, and the value that it restores if it is one of some
closure bodies. -/
def Definition.shift (k : Int) (bodies : List DefName) : Definition → Definition
  | .function f => .function (f.shift k bodies)
  | .builtin b => .builtin b
  | .resource r => .resource { r with body := r.body.mapTags (shiftTag k) }

/-- The helpers split off so far with their tags shifted. -/
def Progress.shift (k : Int) (p : Progress) : Progress :=
  ⟨p.named, p.closures, p.helpers.map (·.shift k p.closures)⟩

theorem Progress.shift_empty (k : Int) : Progress.shift k ⟨0, [], []⟩ = ⟨0, [], []⟩ := rfl

theorem mapTags_argument (g : Nat → Nat) (S : Bindings) : S.argument.mapTags g = S.argument := by
  have hvars : ∀ vars : List (Var × Ty), Term.mapTagsAll g (vars.map fun e => .var e.2 e.1) =
      vars.map fun e => .var e.2 e.1 := by
    intro vars
    induction vars with
    | nil => rfl
    | cons v vars ih => rw [List.map_cons, Term.mapTagsAll, ih, Term.mapTags]
  rw [Bindings.argument, Term.ofTuple, Term.mapTags, hvars]

/-! ## Names of helpers -/

namespace Progress.Numbered

variable {site : Site} {p : Progress} (h : p.Numbered site)

include h

/-- The next name is not that of a helper. -/
theorem fresh {f : Function} (hf : f ∈ p.helpers) : f.name ≠ helperName site.name p.named := by
  intro heq
  have hmem : f.name ∈ p.helpers.map (·.name) := List.mem_map_of_mem hf
  rw [h.names] at hmem
  obtain ⟨i, hi, hname⟩ := List.mem_map.1 hmem
  have hcount := helperName_count_inj (hname.trans heq)
  rw [List.mem_range, hcount, h.named] at hi
  exact Nat.lt_irrefl _ hi

/-- The next name is not that of a closure body. -/
theorem notMem_closures : helperName site.name p.named ∉ p.closures := by
  intro hmem
  obtain ⟨i, hi⟩ := List.mem_iff_getElem?.1 hmem
  obtain ⟨f, hf, hname, -⟩ := h.bodies hi
  exact h.fresh hf hname

/-- A helper that is no closure body is shifted with its tags. -/
theorem shift_addHelper (k : Int) {f : Function} (hf : f.name = helperName site.name p.named) :
    Progress.shift k ⟨p.named + 1, p.closures, p.helpers ++ [f]⟩ =
      ⟨p.named + 1, p.closures,
        (p.shift k).helpers ++ [{ f with body := f.body.mapTags (shiftTag k) }]⟩ := by
  have hname : f.name ∉ p.closures := hf ▸ h.notMem_closures
  simp only [Progress.shift, List.map_append, List.map_singleton, Function.shift, hname, if_false]

/-- A closure body is shifted with the value that it restores as well. Its name is new, so earlier
helpers are shifted as before. -/
theorem shift_addClosure (k : Int) {f : Function} (hf : f.name = helperName site.name p.named) :
    Progress.shift k ⟨p.named + 1, p.closures ++ [f.name], p.helpers ++ [f]⟩ =
      ⟨p.named + 1, p.closures ++ [f.name], (p.shift k).helpers ++
        [{ f with
          body := f.body.mapTags (shiftTag k)
          restore := f.restore.map (· + Int32.ofInt k) }]⟩ := by
  have hearlier : p.helpers.map (fun g => g.shift k (p.closures ++ [f.name])) =
      p.helpers.map fun g => g.shift k p.closures := by
    refine List.map_congr_left fun g hg => ?_
    have hne : g.name ≠ f.name := hf ▸ h.fresh hg
    simp [Function.shift, hne]
  simp only [Progress.shift, List.map_append, hearlier]
  simp [Function.shift]

end Progress.Numbered

/-! ## Two conversions -/

section

variable {k : Int} {site : Site} {α β : Type}

/-- From progress and its shift both computations fail in the same way, or they give an answer and
its image, and progress and its shift again. -/
def Shifts (k : Int) (site : Site) (φ : α → α) (x y : ConvertM α) : Prop :=
  ∀ ⦃p : Progress⦄, p.Numbered site →
    (∃ e, x.run p = .error e ∧ y.run (p.shift k) = .error e) ∨
    ∃ a p', x.run p = .ok (a, p') ∧ y.run (p.shift k) = .ok (φ a, p'.shift k) ∧ p'.Numbered site

namespace Shifts

variable {φ : α → α} {ψ : β → β}

theorem ret {a b : α} (h : b = φ a) : Shifts k site φ (pure a) (pure b) :=
  fun p hp => .inr ⟨a, p, rfl, h ▸ rfl, hp⟩

theorem throw (e : Error) : Shifts k site φ (throw e) (throw e) :=
  fun _ _ => .inl ⟨e, rfl, rfl⟩

theorem lift (e : Except Error α) : Shifts k site id (liftM e) (liftM e) := by
  cases e with
  | error e => exact fun _ _ => .inl ⟨e, rfl, rfl⟩
  | ok a => exact fun p hp => .inr ⟨a, p, rfl, rfl, hp⟩

theorem bind {x y : ConvertM α} {f g : α → ConvertM β} (hx : Shifts k site φ x y)
    (hf : ∀ a, Shifts k site ψ (f a) (g (φ a))) : Shifts k site ψ (x >>= f) (y >>= g) := by
  intro p hp
  rw [StateT.run_bind, StateT.run_bind]
  rcases hx hp with ⟨e, hl, hr⟩ | ⟨a, p', hl, hr, hp'⟩
  · rw [hl, hr]
    exact .inl ⟨e, rfl, rfl⟩
  · rw [hl, hr]
    exact hf a hp'

/-- The clause of a conditional is shifted with its tags; what it restores is not a tag. -/
theorem addClause (n : Nat) (scope : Bindings) (result : Ty) (body : Term)
    (restore : Option Int32) :
    Shifts k site id (addClause site scope result body restore)
      (Flat.addClause ⟨site.name, n⟩ scope result (body.mapTags (shiftTag k)) restore) := by
  intro p hp
  have hshift := hp.shift_addHelper k
    (f := ⟨[], helperName site.name p.named, scope.binder, result, body, restore⟩) rfl
  exact .inr ⟨_, _, rfl, congrArg (fun q => Except.ok (_, q)) hshift.symm, hp.addHelper rfl⟩

/-- A closure body is shifted with its own tag. -/
theorem addClosure {n : Nat} (hk : (n : Int) = site.firstTag + k) (binder : Pattern) (result : Ty)
    (body : Term) :
    Shifts k site (shiftTag k) (addClosure site binder result body)
      (Flat.addClosure ⟨site.name, n⟩ binder result (body.mapTags (shiftTag k))) := by
  intro p hp
  have htag : shiftTag k (site.firstTag + p.closures.length) = n + p.closures.length := by
    rw [shiftTag]
    omega
  have hrestore : Int32.ofNat (n + p.closures.length) =
      Int32.ofNat (site.firstTag + p.closures.length) + Int32.ofInt k := by
    rw [← htag, ofNat_shiftTag (by omega)]
  have hshift := hp.shift_addClosure k (f := ⟨[], helperName site.name p.named, binder, result,
    body, some (Int32.ofNat (site.firstTag + p.closures.length))⟩) rfl
  rw [Option.map_some, ← hrestore] at hshift
  exact .inr ⟨_, _, rfl, (congrArg₂ (fun tag q => Except.ok (tag, q)) htag hshift).symm,
    hp.addClosure (f := ⟨[], _, _, _, _, _⟩) rfl rfl⟩

end Shifts

end

section

variable {T U : Table} {k : Int} {site : Site} {n : Nat}

theorem checkClause_congr (h : T.SameInterfaces U) (ks : List Target.StackKind) (t : Staged.Term) :
    checkClause T ks t = checkClause U ks t := by
  rw [checkClause, checkClause, h.tyOfStaged_eq]

theorem patternOfStaged_congr (h : T.SameInterfaces U) (S : Bindings) (p : Staged.Pattern) :
    Pattern.ofStaged T S p = Pattern.ofStaged U S p :=
  Pattern.ofStaged_congr h.tyOfStaged_eq p S

mutual

/-- The conversion of a term against a table with the same interfaces, with another first tag. -/
theorem shifts_ofStaged (h : T.SameInterfaces U) (hk : (n : Int) = site.firstTag + k) :
    ∀ (t : Staged.Term) (S : Bindings),
    Shifts k site (Term.mapTags (shiftTag k)) (Term.ofStaged T site S t)
      (Term.ofStaged U ⟨site.name, n⟩ S t)
  | .literal t l, S => by
    unfold Term.ofStaged
    rw [h.tyOfStaged_eq]
    exact (Shifts.lift _).bind fun _ => .ret rfl
  | .array t kind es, S => by
    unfold Term.ofStaged
    rw [h.tyOfStaged_eq]
    exact (Shifts.lift _).bind fun _ => (shiftsAll_ofStaged h hk es S).bind fun _ => .ret rfl
  | .list t es, S => by
    unfold Term.ofStaged
    rw [h.tyOfStaged_eq]
    exact (Shifts.lift _).bind fun _ => (shiftsAll_ofStaged h hk es S).bind fun _ => .ret rfl
  | .compound t fields, S => by
    unfold Term.ofStaged
    rw [h.tyOfStaged_eq]
    exact (Shifts.lift _).bind fun _ => (shiftsFields_ofStaged h hk fields S).bind fun _ => .ret rfl
  | .ref t e, S => by
    unfold Term.ofStaged
    rw [h.tyOfStaged_eq]
    exact (Shifts.lift _).bind fun _ => (shifts_ofStaged h hk e S).bind fun _ => .ret rfl
  | .tuple t es, S => by
    unfold Term.ofStaged
    rw [h.tyOfStaged_eq]
    exact (Shifts.lift _).bind fun _ => (shiftsAll_ofStaged h hk es S).bind fun _ => .ret rfl
  | .lambda t p b, S => by
    unfold Term.ofStaged
    rw [h.tyOfStaged_eq, patternOfStaged_congr h]
    refine (Shifts.lift _).bind fun τ => (Shifts.lift _).bind fun captures => ?_
    cases τ with
    | function σ τ =>
      refine (Shifts.lift _).bind fun ⟨p', inner⟩ => ?_
      exact (shifts_ofStaged h hk b (bindCaptures inner captures).2).bind fun b' =>
        (Shifts.addClosure hk _ _ b').bind fun tag => .ret rfl
    | _ => exact .throw _
  | .apply t f a, S => by
    unfold Term.ofStaged
    rw [h.tyOfStaged_eq]
    refine (Shifts.lift _).bind fun _ => (shifts_ofStaged h hk f S).bind fun f' =>
      (shifts_ofStaged h hk a S).bind fun a' => .ret ?_
    simp only [Term.ofTuple, Term.mapTags, Term.mapTagsAll, List.map_cons, List.map_nil,
      Term.ty_mapTags, id]
  | .cond t c a b, S => by
    unfold Term.ofStaged
    rw [h.tyOfStaged_eq]
    refine (Shifts.lift _).bind fun τ => ?_
    rw [checkClause_congr h, checkClause_congr h]
    refine (Shifts.lift _).bind fun _ => (Shifts.lift _).bind fun _ => ?_
    refine (shifts_ofStaged h hk c S).bind fun c' => (shifts_ofStaged h hk a S).bind fun a' => ?_
    refine (Shifts.addClause n S _ a' _).bind fun thenName => ?_
    refine (shifts_ofStaged h hk b S).bind fun b' => ?_
    refine (Shifts.addClause n S _ b' _).bind fun elseName => .ret ?_
    rw [Term.mapTags, mapTags_argument]
    rfl
  | .letIn t p i b, S => by
    unfold Term.ofStaged
    rw [h.tyOfStaged_eq, patternOfStaged_congr h]
    exact (Shifts.lift _).bind fun _ => (shifts_ofStaged h hk i S).bind fun _ =>
      (Shifts.lift _).bind fun r => (shifts_ofStaged h hk b r.2).bind fun _ => .ret rfl
  | .var t v, S => by
    unfold Term.ofStaged
    rw [h.tyOfStaged_eq]
    exact (Shifts.lift _).bind fun _ => (Shifts.lift _).bind fun _ => .ret rfl
  | .call t name a, S => by
    unfold Term.ofStaged
    rw [h.tyOfStaged_eq, h.isNone_function?]
    refine (Shifts.lift _).bind fun _ => ?_
    split
    · exact .throw _
    · exact (shifts_ofStaged h hk a S).bind fun _ => .ret rfl
  | .test t e p, S => by
    unfold Term.ofStaged
    rw [h.tyOfStaged_eq, patternOfStaged_congr h]
    exact (Shifts.lift _).bind fun _ => (shifts_ofStaged h hk e S).bind fun _ =>
      (Shifts.lift _).bind fun _ => .ret rfl
  | .command t line, S => by
    unfold Term.ofStaged
    rw [h.tyOfStaged_eq]
    exact (Shifts.lift _).bind fun _ => .ret rfl
  | .quote .., S => by
    unfold Term.ofStaged
    rw [h.tyOfStaged_eq]
    exact (Shifts.lift _).bind fun _ => .throw _
  | .splice .., S => by
    unfold Term.ofStaged
    rw [h.tyOfStaged_eq]
    exact (Shifts.lift _).bind fun _ => .throw _
  | .hole .., S => by
    unfold Term.ofStaged
    rw [h.tyOfStaged_eq]
    exact (Shifts.lift _).bind fun _ => .throw _

theorem shiftsAll_ofStaged (h : T.SameInterfaces U) (hk : (n : Int) = site.firstTag + k) :
    ∀ (ts : List Staged.Term) (S : Bindings),
    Shifts k site (Term.mapTagsAll (shiftTag k)) (Term.ofStagedAll T site S ts)
      (Term.ofStagedAll U ⟨site.name, n⟩ S ts)
  | [], S => by
    unfold Term.ofStagedAll
    exact .ret rfl
  | t :: ts, S => by
    unfold Term.ofStagedAll
    exact (shifts_ofStaged h hk t S).bind fun _ =>
      (shiftsAll_ofStaged h hk ts S).bind fun _ => .ret rfl

theorem shiftsFields_ofStaged (h : T.SameInterfaces U) (hk : (n : Int) = site.firstTag + k) :
    ∀ (fields : List (String × Staged.Term)) (S : Bindings),
    Shifts k site (Term.mapTagsFields (shiftTag k)) (Term.ofStagedFields T site S fields)
      (Term.ofStagedFields U ⟨site.name, n⟩ S fields)
  | [], S => by
    unfold Term.ofStagedFields
    exact .ret rfl
  | (key, t) :: rest, S => by
    unfold Term.ofStagedFields
    exact (shifts_ofStaged h hk t S).bind fun _ =>
      (shiftsFields_ofStaged h hk rest S).bind fun _ => .ret rfl

end

/-- The converted definition itself restores nothing, so it is shifted with its tags alone. -/
theorem shifts_definition (h : T.SameInterfaces U) (hk : (n : Int) = site.firstTag + k)
    (bodies : List DefName) (d : Staged.Definition) :
    Shifts k site (List.map (Definition.shift k bodies)) (Definition.ofStaged T site d)
      (Definition.ofStaged U ⟨site.name, n⟩ d) := by
  rcases d with r | f | _
  · unfold Definition.ofStaged
    exact (shifts_ofStaged h hk r.body .empty).bind fun _ => (Shifts.lift _).bind fun _ => .ret rfl
  · unfold Definition.ofStaged
    have hown : Shifts k site (Definition.shift k bodies) (Definition.ofStagedFunction T site f)
        (Definition.ofStagedFunction U ⟨site.name, n⟩ f) := by
      unfold Definition.ofStagedFunction
      rw [h.tyOfStaged_eq, patternOfStaged_congr h]
      refine (Shifts.lift _).bind fun marks => ?_
      split
      · exact (Shifts.lift _).bind fun _ => (Shifts.lift _).bind fun _ => .ret rfl
      · refine (Shifts.lift _).bind fun ⟨binder, scope⟩ => (shifts_ofStaged h hk f.body scope).bind
          fun body => (Shifts.lift _).bind fun result => .ret ?_
        simp [Definition.shift, Function.shift]
    exact hown.bind fun _ => .ret rfl
  · unfold Definition.ofStaged
    exact .ret rfl

end

/-- Conversions of a definition against tables with the same interfaces, which start from two tables
of closure bodies, fail in the same way or give the same definitions up to a shift, and the same new
bodies. -/
theorem shifts_convert {T U : Table} (h : T.SameInterfaces U) (C D : ClosureTable)
    (d : Staged.Definition) :
    (∃ e, convert T C d = .error e ∧ convert U D d = .error e) ∨
    ∃ flat bodies, convert T C d = .ok (flat, C.append bodies) ∧
      convert U D d = .ok (flat.map (Definition.shift (D.size - C.size) bodies),
        D.append bodies) := by
  unfold convert
  have hk : (D.size : Int) = C.size + (D.size - C.size) := by omega
  have hshifts := fun bodies =>
    @shifts_definition T U _ ⟨d.name, C.size⟩ _ h hk bodies d _ (Progress.numbered_empty _)
  rcases hshifts [] with ⟨e, hl, hr⟩ | ⟨own, p, hl, hr, -⟩
  · rw [Progress.shift_empty] at hr
    rw [hl, hr]
    exact .inl ⟨e, rfl, rfl⟩
  · -- the bodies that were split off are known now, and the shift can speak of them
    obtain ⟨e, hl', -⟩ | ⟨own', p', hl', hr', -⟩ := hshifts p.closures
    · rw [hl] at hl'
      cases hl'
    rw [hl] at hl'
    cases hl'
    rw [Progress.shift_empty] at hr'
    refine .inr ⟨_, p.closures, by rw [hl]; rfl, ?_⟩
    rw [hr']
    change Except.ok (_, _) = Except.ok (_, _)
    rw [List.map_append, List.map_map, Progress.shift, List.map_map]
    rfl

end Stagecraft.Flat

/-! ## Shifted code -/

namespace Stagecraft.Emit

open Target (Instruction Artifact Source)
open Flat (Term ClosureTable shiftTag ofNat_shiftTag)

/-- The instruction with its tag shifted. The only record that is pushed with something in it is
that of a function value. -/
def retag (k : Int) : Instruction → Instruction
  | .append target (.value (.compound [(key, .int tag)])) =>
    .append target (.value (.compound [(key, .int (tag + Int32.ofInt k))]))
  | i => i

/-- The code of a closure body with the tag that it restores on exit shifted. -/
def shiftExit (k : Int) : List Instruction → List Instruction
  | [] => []
  | [.setScore register tag] => [.setScore register (tag + Int32.ofInt k)]
  | i :: is => i :: shiftExit k is

/-- The artifact with its tags shifted, and the tag that it restores if it is a closure body. -/
def shiftArtifact (k : Int) (isBody : Bool) : Artifact → Artifact
  | .function l is =>
    .function l (if isBody then shiftExit k (is.map (retag k)) else is.map (retag k))
  | .resource registry l body => .resource registry l body

theorem retag_of_isPlain {k : Int} {i : Instruction} (h : isPlain i = true) : retag k i = i := by
  unfold retag
  split
  · cases h
  · rfl

theorem shiftExit_append (k : Int) (is : List Instruction) (n : Int32) :
    shiftExit k (is ++ [.setScore .result n]) = is ++ [.setScore .result (n + Int32.ofInt k)] := by
  induction is with
  | nil => rfl
  | cons i is ih =>
    rw [List.cons_append, List.cons_append, ← ih]
    cases is <;> cases i <;> rfl

theorem relates_retag (options : Options) (k : Int) :
    Relates options options (shiftTag k) (fun tag => 0 ≤ (tag : Int) + k) (fun _ => True)
      fun is js => js = is.map (retag k) where
  nil := rfl
  append h h' := by rw [h, h', List.map_append]
  plain h := by rw [List.map_singleton, retag_of_isPlain h]
  remark line := by
    unfold remark
    split <;> rfl
  record h := by
    rw [makeRecord, ofNat_shiftTag h]
    rfl
  call _ := rfl
  jump _ _ := rfl

/-- Code for a function with its tags shifted. -/
theorem function_mapTags (options : Options) {k : Int} (f : Flat.Function)
    (h : ∀ c ∈ f.body.closures, 0 ≤ (c.1 : Int) + k) :
    function options { f with body := f.body.mapTags (shiftTag k) } =
      (function options f).map (List.map (retag k)) := by
  have hexit : exit f.restore = (exit f.restore).map (retag k) := by
    cases f.restore <;> rfl
  rcases (relates_retag options k).function f f.restore (fun _ _ => trivial) h hexit with
    ⟨e, hl, hr⟩ | ⟨is, js, hl, hr, rfl⟩ <;> exact hr.trans (by rw [hl]; rfl)

theorem functionBody_restore (options : Options) (f : Flat.Function) (n : Int32) :
    functionBody options { f with restore := some n } =
      functionBody options { f with restore := none } >>= fun _ => emit (.setScore .result n) := by
  simp only [functionBody, bind_assoc]
  refine bind_congr fun _ => bind_congr fun _ => bind_congr fun frame => bind_congr fun _ => ?_
  change (if f.has .noDrop || f.binder.has .noDrop then _ else _) =
    (if f.has .noDrop || f.binder.has .noDrop then _ else _) >>= _
  split <;> simp only [bind_assoc, pure_bind]

/-- What a function restores is written on exit, after everything else. -/
theorem function_restore (options : Options) (f : Flat.Function) (n : Int32) :
    function options { f with restore := some n } =
      (function options { f with restore := none }).map (· ++ [.setScore .result n]) := by
  unfold function
  rw [functionBody_restore, StateT.run_bind]
  cases (functionBody options { f with restore := none }).run ⟨.empty, #[]⟩ with
  | error e => rfl
  | ok r => exact congrArg Except.ok Array.toList_push

/-- Code for a function that restores a tag, with its tags and that one shifted. -/
theorem function_mapTags_restore (options : Options) {k : Int} (f : Flat.Function) (n : Int32)
    (h : ∀ c ∈ f.body.closures, 0 ≤ (c.1 : Int) + k) :
    function options
        { f with body := f.body.mapTags (shiftTag k), restore := some (n + Int32.ofInt k) } =
      (function options { f with restore := some n }).map fun is =>
        shiftExit k (is.map (retag k)) := by
  have htags : function options { f with body := f.body.mapTags (shiftTag k), restore := none } =
      (function options { f with restore := none }).map (List.map (retag k)) :=
    function_mapTags options { f with restore := none } h
  rw [function_restore options { f with body := f.body.mapTags (shiftTag k) }, htags,
    function_restore options f]
  cases function options { f with restore := none } with
  | error e => rfl
  | ok is =>
    refine congrArg Except.ok ?_
    simp only [List.map_append, List.map_singleton]
    exact (shiftExit_append k _ n).symm

mutual

/-- A resource body with a function value in it is not plain data, whatever the tag. -/
theorem tree_mapTags (g : Nat → Nat) : ∀ t : Term, tree (t.mapTags g) = tree t
  | .literal .. | .closure .. | .branch .. | .letIn .. | .var .. | .call .. | .test ..
  | .command .. | .tuple .. => rfl
  | .array _ _ es | .list _ es => by rw [Term.mapTags, tree, tree, trees_mapTags g es]
  | .compound _ fields => by rw [Term.mapTags, tree, tree, fieldTrees_mapTags g fields]
  | .ref _ e => by rw [Term.mapTags, tree, tree, tree_mapTags g e]

theorem trees_mapTags (g : Nat → Nat) : ∀ ts : List Term, trees (Term.mapTagsAll g ts) = trees ts
  | [] => rfl
  | t :: ts => by rw [Term.mapTagsAll, trees, trees, tree_mapTags g t, trees_mapTags g ts]

theorem fieldTrees_mapTags (g : Nat → Nat) : ∀ fields : List (String × Term),
    fieldTrees (Term.mapTagsFields g fields) = fieldTrees fields
  | [] => rfl
  | (_, t) :: rest => by
    rw [Term.mapTagsFields, fieldTrees, fieldTrees, tree_mapTags g t, fieldTrees_mapTags g rest]

end

/-- The artifact of a shifted definition is that of the definition, shifted. -/
theorem artifact?_shift (options : Options) {k : Int} {bodies : List DefName} {e : Flat.Definition}
    (htags : ∀ t, e.body? = some t → ∀ c ∈ t.closures, 0 ≤ (c.1 : Int) + k)
    (hbodies : ∀ f, e = .function f → f.name ∈ bodies → f.restore ≠ none) :
    artifact? options (e.shift k bodies) =
      (artifact? options e).map (Option.map (shiftArtifact k (e.name ∈ bodies))) := by
  rcases e with f | b | r
  · have hcode : function options (f.shift k bodies) = (function options f).map fun is =>
        if f.name ∈ bodies then shiftExit k (is.map (retag k)) else is.map (retag k) := by
      have hf := htags f.body rfl
      unfold Flat.Function.shift
      split
      · next hname =>
        obtain ⟨n, hn⟩ := Option.ne_none_iff_exists'.1 (hbodies f rfl hname)
        have hrestore := function_mapTags_restore options f n hf
        rw [← hn] at hrestore
        rw [hn]
        exact hrestore
      · exact function_mapTags options f hf
    rw [Flat.Definition.shift, artifact?, artifact?, hcode]
    cases function options f with
    | error e => rfl
    | ok is =>
      refine congrArg (fun is => Except.ok (some (Artifact.function _ is))) ?_
      by_cases hname : f.name ∈ bodies <;> simp [Flat.Definition.name, hname]
  · rfl
  · rw [Flat.Definition.shift, artifact?, artifact?, tree_mapTags]
    cases tree r.body <;> rfl

end Stagecraft.Emit

namespace Stagecraft

open Staged (Table)
open Flat (ClosureTable convert helperName)
open Emit (artifact? shiftArtifact)

/-! ## Separate compilation -/

/-- Tags are given from the number of earlier closure bodies on, and closure bodies restore them. -/
theorem Flat.tags_of_convert {T : Table} {C : ClosureTable} {d : Staged.Definition}
    {flat : List Flat.Definition} {bodies : List DefName}
    (h : convert T C d = .ok (flat, C.append bodies)) {e : Flat.Definition} (he : e ∈ flat) :
    (∀ t, e.body? = some t → ∀ c ∈ t.closures, C.size ≤ c.1) ∧
      ∀ f, e = .function f → f.name ∈ bodies →
        ∃ tag, C.size ≤ tag ∧ f.restore = some (Int32.ofNat tag) := by
  obtain ⟨own, helpers, bodies', rfl, hbodies, hout⟩ := exists_isOutcome h
  obtain rfl : bodies = bodies' := List.append_cancel_left (ClosureTable.mk.inj hbodies)
  refine ⟨fun t ht c hc => ?_, ?_⟩
  · obtain ⟨_, -, hvalues⟩ := hout.values e he t ht
    have hge : List.Forall₂ (fun (c : Nat × List Capture) (_ : Staged.Term) =>
        C.size ≤ c.1 ∧ True) t.closures _ :=
      hvalues.flip.imp fun c _ ⟨i, _, _, htag, _⟩ => ⟨htag ▸ Nat.le_add_right _ i, trivial⟩
    exact ((List.forall₂_and_left _ _).1 hge).1 c hc
  · rintro f rfl hname
    obtain ⟨i, hi⟩ := List.mem_iff_getElem?.1 hname
    obtain ⟨g, hg, hgname, hrestore⟩ := hout.body hi
    obtain ⟨j, hj⟩ := exists_helperName_of_mem hout.names hg
    rcases List.mem_append.1 he with he | he
    · have hown := hout.name_own _ he
      exact absurd (hj.symm.trans (hgname.trans hown)) (helperName_ne_self d.name j)
    · -- names of helpers are distinct, so this one is the body
      obtain ⟨f', hf', hff'⟩ := List.mem_map.1 he
      cases hff'
      have hnodup : (helpers.map (·.name)).Nodup := by
        rw [hout.names]
        exact List.Nodup.map (fun _ _ => helperName_count_inj) List.nodup_range
      have heq : g = f := List.inj_on_of_nodup_map hnodup hg hf' hgname
      exact ⟨_, Nat.le_add_right _ i, heq ▸ hrestore⟩

/-- **Separate compilation.** Take two tables with the same interfaces and a function without
splices and bindings of code. Staging it gives the same in both. Converting what is staged against
tables with the same interfaces, from two tables of closure bodies, fails in the same way or gives
the same definitions, where every tag and what every closure body restores is shifted by the
difference of the lengths, and appends the same bodies. The artifacts are the same up to that
shift. -/
theorem compiles_separately {T U : Table} (h : T.SameInterfaces U) {f : Staged.Function}
    (hf : f.body.isUnstaged T = true) (natives natives' : Eval.Natives)
    (limit limit' fuel fuel' : Nat) :
    Residual.residual? ⟨T, natives, limit⟩ fuel (.function f) =
      Residual.residual? ⟨U, natives', limit'⟩ fuel' (.function f) ∧
    Residual.residual? ⟨T, natives, limit⟩ fuel (.function f) ≠ .error .outOfFuel ∧
    ∀ g, Residual.residual? ⟨T, natives, limit⟩ fuel (.function f) = .ok (some g) →
      ∀ S S' : Table, S.SameInterfaces S' → ∀ C D : ClosureTable,
        (∃ e, convert S C g = .error e ∧ convert S' D g = .error e) ∨
        ∃ flat bodies, convert S C g = .ok (flat, C.append bodies) ∧
          convert S' D g = .ok (flat.map (Flat.Definition.shift (D.size - C.size) bodies),
            D.append bodies) ∧
          ∀ e ∈ flat,
            (∀ t, e.body? = some t → ∀ c ∈ t.closures, C.size ≤ c.1) ∧
            (∀ f, e = .function f → f.name ∈ bodies →
              ∃ tag, C.size ≤ tag ∧ f.restore = some (Int32.ofNat tag)) ∧
            ∀ options, artifact? options (e.shift (D.size - C.size) bodies) =
              (artifact? options e).map
                (Option.map (shiftArtifact (D.size - C.size) (e.name ∈ bodies))) := by
  obtain ⟨hstaging, hfuel⟩ := Residual.residual?_eq_of_sameInterfaces ⟨T, natives, limit⟩
    ⟨U, natives', limit'⟩ fuel fuel' h hf
  refine ⟨hstaging, hfuel, ?_⟩
  intro g _ S S' hS C D
  refine (Flat.shifts_convert hS C D g).imp_right ?_
  rintro ⟨flat, bodies, hC, hD⟩
  refine ⟨flat, bodies, hC, hD, fun e he => ?_⟩
  obtain ⟨htags, hbodies⟩ := Flat.tags_of_convert hC he
  refine ⟨htags, hbodies, fun options => Emit.artifact?_shift options ?_ ?_⟩
  · intro t ht c hc
    have hge := htags t ht c hc
    omega
  · intro f hf hname
    obtain ⟨tag, -, hrestore⟩ := hbodies f hf hname
    simp [hrestore]

/-- A function that others call. -/
def callee (body : Staged.Term) : Staged.Function :=
  ⟨[], ⟨["main"], "g"⟩, .var (Staged.Pattern.plain .int) ⟨"x", 0⟩, .int, body⟩

/-- A function that calls `g`, with a local function that captures a variable and a conditional. -/
def caller : Staged.Function :=
  ⟨[], ⟨["main"], "f"⟩, .var (Staged.Pattern.plain (.alias ⟨["main"], "number"⟩)) ⟨"x", 0⟩, .int,
    .ofLet (.var (Staged.Pattern.plain (.function .int .int)) ⟨"k", 1⟩)
      (.ofLambda (.var (Staged.Pattern.plain .int) ⟨"y", 2⟩) (.var .int ⟨"x", 0⟩))
      (.ofCond (.ofTest (.var .int ⟨"x", 0⟩) (.int (Staged.Pattern.plain .int) 3))
        (.ofApply (.var (.function .int .int) ⟨"k", 1⟩) (.ofLiteral (.int 4)))
        (.call .int ⟨["main"], "g"⟩ (.var .int ⟨"x", 0⟩)))⟩

/-- The two functions and the type that one of them names. -/
def calling : Table :=
  .ofList [.alias ⟨[], ⟨["main"], "number"⟩, .int⟩, .function (callee (.var .int ⟨"x", 0⟩)),
    .function caller]

/-- The same with a callee that fails to be converted, after two closure bodies of others. -/
theorem compiles_separately_caller :
    calling.SameInterfaces (calling.insert (.function (callee (.ofQuote (.ofLiteral (.int 1)))))) ∧
    caller.body.isUnstaged calling = true ∧
    ∃ flat bodies, convert calling .empty (.function caller) = .ok (flat, ⟨bodies⟩) ∧
      convert (calling.insert (.function (callee (.ofQuote (.ofLiteral (.int 1))))))
        ⟨[⟨["main"], "e:0"⟩, ⟨["main"], "e:1"⟩]⟩ (.function caller) =
          .ok (flat.map (Flat.Definition.shift 2 bodies),
            ⟨[⟨["main"], "e:0"⟩, ⟨["main"], "e:1"⟩] ++ bodies⟩) ∧
      bodies.map (·.name) = ["f:0"] ∧ flat.map (·.name.name) = ["f", "f:0", "f:1", "f:2"] := by
  have hmem : .function (callee (.var .int ⟨"x", 0⟩)) ∈ calling.definitions :=
    List.mem_cons_of_mem _ List.mem_cons_self
  have hsame := Table.sameInterfaces_insert hmem
    (g := callee (.ofQuote (.ofLiteral (.int 1)))) rfl rfl
  have hunstaged : caller.body.isUnstaged calling = true := by decide +kernel
  have hresidual := Residual.residual?_of_isRunTime ⟨calling, .prelude, 0⟩ 0
    (d := .function caller) (by decide +kernel)
  have hchecks : ((convert calling .empty (.function caller)).toOption.any fun r =>
      r.2.bodies.map (·.name) == ["f:0"] &&
        r.1.map (·.name.name) == ["f", "f:0", "f:1", "f:2"]) = true := by
    decide +kernel
  refine ⟨hsame, hunstaged, ?_⟩
  obtain ⟨-, -, hcompiled⟩ := compiles_separately hsame hunstaged .prelude .prelude 0 0 0 0
  obtain ⟨e, he, -⟩ | ⟨flat, bodies, hC, hD, -⟩ := hcompiled _ hresidual _ _ hsame .empty
    ⟨[⟨["main"], "e:0"⟩, ⟨["main"], "e:1"⟩]⟩
  · rw [he] at hchecks
    cases hchecks
  · rw [hC] at hchecks
    simp only [Except.toOption, Option.any_some, Bool.and_eq_true, beq_iff_eq] at hchecks
    exact ⟨flat, bodies, hC, hD, hchecks.1, hchecks.2⟩

end Stagecraft
