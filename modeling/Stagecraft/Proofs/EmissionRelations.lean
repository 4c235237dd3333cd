import Stagecraft.Proofs.ClosureTags
import Stagecraft.Proofs.StackDiscipline

/-!
# Relations between emitted code

No index is computed from the instructions emitted so far, and no decision is taken on a tag. So two
computations that emit code for the same term take the same way through the slot model, whatever the
tags and the options are, and what they emit can be compared instruction by instruction. `Alike`
says so of two computations, for a relation between lists of instructions that can be shown piece
by piece; `Relates` collects what such a relation has to say about single instructions, and
`Relates.term` and `Relates.functionBody` are what it then says about code.
-/

/-! ## Terms with other tags -/

namespace Stagecraft.Flat.Term

mutual

/-- The term with other tags in its function values. -/
def mapTags (g : Nat → Nat) : Term → Term
  | .literal ty l => .literal ty l
  | .array ty kind es => .array ty kind (mapTagsAll g es)
  | .list ty es => .list ty (mapTagsAll g es)
  | .compound ty fields => .compound ty (mapTagsFields g fields)
  | .ref ty e => .ref ty (mapTags g e)
  | .tuple ty es => .tuple ty (mapTagsAll g es)
  | .closure ty tag captures => .closure ty (g tag) captures
  | .branch ty c a thenName elseName => .branch ty (mapTags g c) (mapTags g a) thenName elseName
  | .letIn ty p i b => .letIn ty p (mapTags g i) (mapTags g b)
  | .var ty v => .var ty v
  | .call ty name a => .call ty name (mapTags g a)
  | .test ty e p => .test ty (mapTags g e) p
  | .command ty line => .command ty line

/-- Several terms with other tags. -/
def mapTagsAll (g : Nat → Nat) : List Term → List Term
  | [] => []
  | t :: ts => mapTags g t :: mapTagsAll g ts

/-- The fields of a record with other tags. -/
def mapTagsFields (g : Nat → Nat) : List (String × Term) → List (String × Term)
  | [] => []
  | (key, t) :: rest => (key, mapTags g t) :: mapTagsFields g rest

end

variable (g : Nat → Nat)

@[simp] theorem ty_mapTags (t : Term) : (t.mapTags g).ty = t.ty := by
  cases t <;> rfl

theorem mapTagsAll_eq (ts : List Term) : mapTagsAll g ts = ts.map (mapTags g) := by
  induction ts with
  | nil => rfl
  | cons t ts ih => rw [mapTagsAll, ih, List.map_cons]

mutual

theorem mapTags_id : ∀ t : Term, t.mapTags id = t
  | .literal .. | .closure .. | .var .. | .command .. => rfl
  | .array _ _ es | .list _ es | .tuple _ es => by rw [mapTags, mapTagsAll_id es]
  | .compound _ fields => by rw [mapTags, mapTagsFields_id fields]
  | .ref _ e | .call _ _ e | .test _ e _ => by rw [mapTags, mapTags_id e]
  | .branch _ c a _ _ => by rw [mapTags, mapTags_id c, mapTags_id a]
  | .letIn _ _ i b => by rw [mapTags, mapTags_id i, mapTags_id b]

theorem mapTagsAll_id : ∀ ts : List Term, mapTagsAll id ts = ts
  | [] => rfl
  | t :: ts => by rw [mapTagsAll, mapTags_id t, mapTagsAll_id ts]

theorem mapTagsFields_id : ∀ fields : List (String × Term), mapTagsFields id fields = fields
  | [] => rfl
  | (_, t) :: rest => by rw [mapTagsFields, mapTags_id t, mapTagsFields_id rest]

end

end Stagecraft.Flat.Term

namespace Stagecraft.Emit

open Target (StackKind Location Instruction DataPath Source ScoreRange Nbt)
open Flat (Term Pattern)

theorem constant?_mapTags (g : Nat → Nat) (kind : ArrayKind) (t : Term) :
    constant? kind (t.mapTags g) = constant? kind t := by
  cases t <;> rfl

theorem arrayShell_mapTags (g : Nat → Nat) (kind : ArrayKind) (ts : List Term) :
    arrayShell kind (ts.map (Term.mapTags g)) = arrayShell kind ts := by
  simp only [arrayShell, List.map_map, Function.comp_def, constant?_mapTags]

/-! ## Two computations -/

/-- A relation between lists of instructions that can be shown piece by piece. -/
structure Piecewise (R : List Instruction → List Instruction → Prop) : Prop where
  nil : R [] []
  append {is is' js js'} : R is js → R is' js' → R (is ++ is') (js ++ js')

section

variable {α β : Type}

/-- Both runs fail in the same way, or both give the same answer and leave the same slots, and what
they have added is related. -/
inductive Outcomes (R : List Instruction → List Instruction → Prop) (o o' : Output) :
    Except Error (α × Output) → Except Error (α × Output) → Prop
  | error (e : Error) : Outcomes R o o' (.error e) (.error e)
  | ok {a : α} {p p' : Output} {is js : List Instruction} (slots : p.slots = p'.slots)
      (left : p.instructions.toList = o.instructions.toList ++ is)
      (right : p'.instructions.toList = o'.instructions.toList ++ js) (related : R is js) :
      Outcomes R o o' (.ok (a, p)) (.ok (a, p'))

/-- From the same slots both computations do the same to them, and emit related instructions. -/
def Alike (R : List Instruction → List Instruction → Prop) (x y : EmitM α) : Prop :=
  ∀ ⦃o o'⦄, o.slots = o'.slots → Outcomes R o o' (x o) (y o')

/-! The rules that need nothing but pieces belong to the relation. -/

namespace Piecewise

variable {R : List Instruction → List Instruction → Prop} (hR : Piecewise R)

include hR

theorem ret (a : α) : Alike R (pure a) (pure a) :=
  fun _ _ h => .ok h (List.append_nil _).symm (List.append_nil _).symm hR.nil

theorem seq {x y : EmitM α} {f f' : α → EmitM β} (hx : Alike R x y)
    (hf : ∀ a, Alike R (f a) (f' a)) : Alike R (x >>= f) (y >>= f') := by
  intro o o' h
  change Outcomes R o o' (x o >>= fun r => f r.1 r.2) (y o' >>= fun r => f' r.1 r.2)
  have hfirst := hx h
  revert hfirst
  generalize x o = r, y o' = r'
  rintro (e | @⟨a, p, p', is, js, hslots, hleft, hright, hrel⟩)
  · exact .error e
  · change Outcomes R o o' (f a p) (f' a p')
    have hsecond := hf a hslots
    revert hsecond
    generalize f a p = r, f' a p' = r'
    rintro (e | @⟨b, q, q', is', js', hslots', hleft', hright', hrel'⟩)
    · exact .error e
    · have hleft'' : q.instructions.toList = o.instructions.toList ++ (is ++ is') := by
        rw [hleft', hleft, List.append_assoc]
      have hright'' : q'.instructions.toList = o'.instructions.toList ++ (js ++ js') := by
        rw [hright', hright, List.append_assoc]
      exact .ok hslots' hleft'' hright'' (hR.append hrel hrel')

theorem lift (x : Except Error α) : Alike R (liftM x) (liftM x) := by
  cases x with
  | error e => exact fun _ _ _ => .error e
  | ok a => exact hR.ret a

theorem ask (f : Slots → Except Error α) : Alike R (ask f) (Emit.ask f) := by
  intro o o' h
  change Outcomes R o o' ((liftM (f o.slots) : EmitM α) o) ((liftM (f o'.slots) : EmitM α) o')
  rw [← h]
  exact hR.lift _ h

theorem follow (f : Slots → Slots) : Alike R (follow f) (Emit.follow f) :=
  fun _ _ h => .ok (congrArg f h) (List.append_nil _).symm (List.append_nil _).symm hR.nil

theorem tryFollow (f : Slots → Except Error Slots) :
    Alike R (tryFollow f) (Emit.tryFollow f) := by
  intro o o' h
  change Outcomes R o o' ((liftM (f o.slots) >>= fun slots => set { o with slots } : EmitM Unit) o)
    ((liftM (f o'.slots) >>= fun slots => set { o' with slots } : EmitM Unit) o')
  rw [← h]
  cases f o.slots with
  | error e => exact .error e
  | ok slots => exact .ok rfl (List.append_nil _).symm (List.append_nil _).symm hR.nil

end Piecewise

namespace Alike

variable {R : List Instruction → List Instruction → Prop}

theorem throw (e : Error) : Alike R (throw e : EmitM α) (MonadExcept.throw e) :=
  fun _ _ _ => .error e

theorem emit {i j : Instruction} (h : R [i] [j]) : Alike R (emit i) (Emit.emit j) :=
  fun _ _ hslots => .ok hslots Array.toList_push Array.toList_push h

/-- Of the output only the slots are the same. -/
theorem get {f f' : Output → EmitM α}
    (hf : ∀ p p' : Output, p.slots = p'.slots → Alike R (f p) (f' p')) :
    Alike R (MonadState.get >>= f) (MonadState.get >>= f') := by
  intro o o' h
  change Outcomes R o o' (f o o) (f' o' o')
  exact hf o o' h h

theorem ite {p : Prop} [Decidable p] {x y x' y' : EmitM α} (hx : Alike R x x')
    (hy : Alike R y y') : Alike R (if p then x else y) (if p then x' else y') := by
  split
  · exact hx
  · exact hy

/-- What two related computations emit, started on nothing. -/
theorem run {x y : EmitM α} (h : Alike R x y) (slots : Slots) :
    (∃ e, x ⟨slots, #[]⟩ = .error e ∧ y ⟨slots, #[]⟩ = .error e) ∨
      ∃ a p p', x ⟨slots, #[]⟩ = .ok (a, p) ∧ y ⟨slots, #[]⟩ = .ok (a, p') ∧
        R p.instructions.toList p'.instructions.toList := by
  have hout := @h ⟨slots, #[]⟩ ⟨slots, #[]⟩ rfl
  revert hout
  generalize x ⟨slots, #[]⟩ = r, y ⟨slots, #[]⟩ = r'
  rintro (e | @⟨a, p, p', is, js, -, hleft, hright, hrel⟩)
  · exact .inl ⟨e, rfl, rfl⟩
  · refine .inr ⟨a, p, p', rfl, rfl, ?_⟩
    rw [hleft, hright]
    exact hrel

end Alike

end

/-! ## Code -/

/-- An instruction that says nothing of tags, options or other definitions. -/
def isPlain : Instruction → Bool
  | .append _ (.value (.compound (_ :: _))) | .call _ | .comment _ => false
  | .ifScore _ _ _ body => isPlain body
  | .append .. | .set .. | .remove _ | .setScore .. | .storeScore .. | .storeData .. | .raw _ =>
    true

/-- The instruction that makes the record of a function value. -/
def makeRecord (tag : Nat) : Instruction :=
  .append (.whole .compound) (.value (.compound [("_", .int (Int32.ofNat tag))]))

/-- What remarks become. -/
def remark (options : Options) (line : String) : List Instruction :=
  if options.debug then [.comment line] else []

/-- What a relation says about single instructions: those under some options and those under others,
those that carry a tag that was `made` and those that carry another instead, and those that call
something that may be `called`. -/
structure Relates (o o' : Options) (g : Nat → Nat) (made : Nat → Prop) (called : DefName → Prop)
    (R : List Instruction → List Instruction → Prop) : Prop extends Piecewise R where
  plain {i : Instruction} : isPlain i = true → R [i] [i]
  remark (line : String) : R (remark o line) (remark o' line)
  record {tag : Nat} : made tag → R [makeRecord tag] [makeRecord (g tag)]
  call {name : DefName} : called name →
    R [.call (.ofName o.nspace name)] [.call (.ofName o'.nspace name)]
  jump {name : DefName} (range : ScoreRange) : called name →
    R [.ifScore false .result range (.call (.ofName o.nspace name))]
      [.ifScore false .result range (.call (.ofName o'.nspace name))]

theorem isPlain_ofLiteral (target : DataPath) (l : Literal) :
    isPlain (.append target (.value (.ofLiteral l))) = true := by
  cases l <;> rfl

theorem isPlain_arrayShell (target : DataPath) (kind : ArrayKind) (ts : List Term) :
    isPlain (.append target (.value (arrayShell kind ts))) = true := by
  cases kind <;> rfl

namespace Relates

variable {o o' : Options} {g : Nat → Nat} {made : Nat → Prop} {called : DefName → Prop}
  {R : List Instruction → List Instruction → Prop} (h : Relates o o' g made called R)

include h

theorem comment (line : String) : Alike R (comment o line) (Emit.comment o' line) := by
  intro p p' hslots
  have hremark := h.remark line
  unfold Emit.comment
  unfold Emit.remark at hremark
  by_cases ho : o.debug = true <;> by_cases ho' : o'.debug = true <;>
    simp only [ho, ho', if_true, if_false, Bool.false_eq_true] at hremark ⊢
  · exact .ok hslots Array.toList_push Array.toList_push hremark
  · exact .ok hslots Array.toList_push (List.append_nil _).symm hremark
  · exact .ok hslots (List.append_nil _).symm Array.toList_push hremark
  · exact .ok hslots (List.append_nil _).symm (List.append_nil _).symm hremark

theorem emit {i : Instruction} (hi : isPlain i = true) : Alike R (emit i) (Emit.emit i) :=
  .emit (h.plain hi)

theorem push (k : StackKind) {s s' : Source}
    (hs : R [.append (.whole k) s] [.append (.whole k) s']) :
    Alike R (push o k s) (Emit.push o' k s') :=
  .ite (h.seq (h.comment _) fun _ => h.seq (.emit hs) fun _ => h.follow _) (h.follow _)

theorem removeAt (k : StackKind) (i : Int32) (keeps : List StackKind) :
    Alike R (removeAt o k i keeps) (Emit.removeAt o' k i keeps) :=
  h.seq (h.tryFollow _) fun _ => .ite (h.seq (h.comment _) fun _ => h.emit rfl) (h.ret ())

theorem dropAll (keeps : List StackKind) : ∀ ks : List StackKind,
    Alike R (dropAll o keeps ks) (Emit.dropAll o' keeps ks)
  | [] => h.ret ()
  | k :: ks => h.seq (h.removeAt k _ keeps) fun _ => dropAll keeps ks

theorem removeFree (k : StackKind) : Alike R (removeFree o k) (Emit.removeFree o' k) :=
  h.seq (h.ask _) fun position =>
    .get fun _ _ hslots => by
      rw [hslots]
      exact h.removeAt k _ []

theorem removeFreeAll : ∀ ks : List StackKind,
    Alike R (removeFreeAll o ks) (Emit.removeFreeAll o' ks)
  | [] => h.ret ()
  | k :: ks => h.seq (h.removeFree k) fun _ => removeFreeAll ks

theorem forget (ks : List StackKind) : Alike R (forget ks) (Emit.forget ks) :=
  h.tryFollow _

mutual

theorem bind : ∀ p : Pattern, Alike R (bind o p) (Emit.bind o' p)
  | .var info v => by
    rw [Emit.bind, Emit.bind]
    exact h.seq (h.tryFollow _) fun _ => h.ret _
  | .int .. | .range .. => by
    rw [Emit.bind, Emit.bind]
    exact h.seq (h.removeFree .int) fun _ => h.ret _
  | .wildcard info => by
    rw [Emit.bind, Emit.bind]
    exact h.seq (h.removeFreeAll _) fun _ => h.ret _
  | .tuple _ ps => by
    rw [Emit.bind, Emit.bind]
    exact bindAll ps
  | .compound _ fields => by
    rw [Emit.bind, Emit.bind]
    exact h.seq (h.ask _) fun record => h.seq (bindFields record fields) fun frame =>
      .get fun _ _ hslots => by
        rw [hslots]
        exact h.seq (h.removeAt .compound _ []) fun _ => h.ret frame
  | .list .. => by
    rw [Emit.bind, Emit.bind]
    exact .throw _

theorem bindAll : ∀ ps : List Pattern, Alike R (bindAll o ps) (Emit.bindAll o' ps)
  | [] => by
    rw [Emit.bindAll, Emit.bindAll]
    exact h.ret _
  | p :: ps => by
    rw [Emit.bindAll, Emit.bindAll]
    exact h.seq (bindAll ps) fun frame => h.seq (bind p) fun _ => h.ret _

theorem bindFields (record : Nat) : ∀ fields : List (String × Pattern),
    Alike R (bindFields o record fields) (Emit.bindFields o' record fields)
  | [] => by
    rw [Emit.bindFields, Emit.bindFields]
    exact h.ret _
  | (key, p) :: rest => by
    rw [Emit.bindFields, Emit.bindFields]
    refine h.seq (h.lift _) fun k => .get fun _ _ hslots => ?_
    rw [hslots]
    exact h.seq (h.push k (h.plain rfl)) fun _ => h.seq (bind p)
      fun frame => h.seq (bindFields record rest) fun _ => h.ret _

end

theorem testInt (range : ScoreRange) : Alike R (testInt o range) (Emit.testInt o' range) :=
  h.seq (h.emit rfl) fun _ => h.seq (h.removeAt .int _ []) fun _ => h.emit rfl

mutual

theorem test : ∀ p : Pattern, Alike R (test o p) (Emit.test o' p)
  | .int _ n => by
    rw [Emit.test, Emit.test]
    exact h.testInt _
  | .range _ min max => by
    rw [Emit.test, Emit.test]
    exact h.testInt _
  | .tuple _ ps => by
    rw [Emit.test, Emit.test]
    exact testAll ps
  | .var info _ | .wildcard info => by
    rw [Emit.test, Emit.test]
    exact h.dropAll [] _
  | .list .. | .compound .. => by
    rw [Emit.test, Emit.test]
    exact .throw _

theorem testAll : ∀ ps : List Pattern, Alike R (testAll o ps) (Emit.testAll o' ps)
  | [] => by
    rw [Emit.testAll, Emit.testAll]
    exact h.ret _
  | p :: ps => by
    rw [Emit.testAll, Emit.testAll]
    exact h.seq (testAll ps) fun _ => test p

end

theorem copySlots (v : Var) : ∀ ks before : List StackKind,
    Alike R (copySlots o v before ks) (Emit.copySlots o' v before ks)
  | [], before => by
    rw [Emit.copySlots, Emit.copySlots]
    exact h.ret _
  | k :: rest, before => by
    rw [Emit.copySlots, Emit.copySlots]
    refine .get fun _ _ hslots => ?_
    rw [hslots]
    split
    · exact .throw _
    · exact h.seq (h.push k (h.plain rfl)) fun _ => copySlots v rest (before ++ [k])

theorem storeCaptures : ∀ captures : List Flat.Capture,
    Alike R (storeCaptures captures) (Emit.storeCaptures captures)
  | [] => h.ret _
  | c :: rest => by
    rw [Emit.storeCaptures]
    refine .ite (h.seq (h.lift _) fun k => .get fun _ _ hslots => ?_)
      (storeCaptures rest)
    rw [hslots]
    split
    · exact .throw _
    · exact h.seq (h.emit rfl) fun _ => storeCaptures rest

mutual

/-- Code for a term and code for it with other tags. -/
theorem term : ∀ t : Term, (∀ c ∈ callSites t, called c.name) → (∀ c ∈ t.closures, made c.1) →
    Alike R (term o t) (Emit.term o' (t.mapTags g))
  | .literal ty l, _, _ => by
    rw [Term.mapTags, Emit.term, Emit.term]
    exact h.seq (h.lift _) fun k => h.push k (h.plain (isPlain_ofLiteral _ l))
  | .array ty kind es, hc, hm => by
    rw [Term.mapTags, Emit.term, Emit.term, Term.mapTagsAll_eq, arrayShell_mapTags,
      ← Term.mapTagsAll_eq]
    exact h.seq (h.lift _) fun k => h.seq (h.push k (h.plain (isPlain_arrayShell _ kind es)))
      fun _ => arrayElements k kind 0 es hc hm
  | .list _ es, hc, hm => by
    rw [Term.mapTags, Emit.term, Emit.term]
    exact h.seq (h.push .list (h.plain rfl)) fun _ => listElements es hc hm
  | .compound _ fields, hc, hm => by
    rw [Term.mapTags, Emit.term, Emit.term]
    exact h.seq (h.push .compound (h.plain rfl)) fun _ => compoundFields fields hc hm
  | .ref .., _, _ => by
    rw [Term.mapTags, Emit.term, Emit.term]
    exact .throw _
  | .tuple _ es, hc, hm => by
    rw [Term.mapTags, Emit.term, Emit.term]
    exact terms es hc hm
  | .closure _ tag captures, _, hm => by
    rw [Term.mapTags, Emit.term, Emit.term]
    exact h.seq (h.push .compound (h.record (hm _ (List.mem_singleton_self _))))
      fun _ => h.storeCaptures captures
  | .branch ty c a thenName elseName, hc, hm => by
    rw [Term.mapTags, Emit.term, Emit.term, Term.ty_mapTags]
    rw [callSites, List.forall_mem_cons, List.forall_mem_cons, List.forall_mem_append] at hc
    rw [Term.closures, List.forall_mem_append] at hm
    obtain ⟨hthen, helse, hcc, hca⟩ := hc
    refine h.seq (term c hcc hm.1) fun _ => h.seq (h.emit rfl) fun _ =>
      h.seq (h.removeAt .byte _ []) fun _ => h.seq (term a hca hm.2) fun _ =>
        h.seq ?_ fun _ => h.seq (h.forget _) fun _ => h.follow _
    exact h.seq (.emit (h.jump _ hthen)) fun _ => .emit (h.jump _ helse)
  | .letIn _ binder init body, hc, hm => by
    rw [Term.mapTags, Emit.term, Emit.term, Term.ty_mapTags]
    rw [callSites, List.forall_mem_append] at hc
    rw [Term.closures, List.forall_mem_append] at hm
    exact h.seq (term init hc.1 hm.1) fun _ => h.seq (h.bind binder) fun frame =>
      h.seq (term body hc.2 hm.2) fun _ => .ite (h.follow _) (h.dropAll _ _)
  | .var ty v, _, _ => by
    rw [Term.mapTags, Emit.term, Emit.term]
    exact h.copySlots v _ _
  | .call ty name a, hc, hm => by
    rw [Term.mapTags, Emit.term, Emit.term, Term.ty_mapTags]
    rw [callSites, List.forall_mem_cons] at hc
    exact h.seq (term a hc.2 hm) fun _ => h.seq (.emit (h.call hc.1)) fun _ =>
      h.seq (h.forget _) fun _ => h.follow _
  | .test _ e p, hc, hm => by
    rw [Term.mapTags, Emit.term, Emit.term]
    exact h.seq (term e hc hm) fun _ => h.seq (h.emit rfl) fun _ => h.seq (h.test p) fun _ =>
      h.seq (h.push .byte (h.plain rfl)) fun _ => h.emit rfl
  | .command ty line, _, _ => by
    rw [Term.mapTags, Emit.term, Emit.term]
    exact h.seq (h.comment _) fun _ => h.seq (h.emit rfl) fun _ => h.follow _

theorem terms : ∀ ts : List Term, (∀ c ∈ callSitesOfAll ts, called c.name) →
    (∀ c ∈ Term.closuresOfAll ts, made c.1) →
    Alike R (terms o ts) (Emit.terms o' (Term.mapTagsAll g ts))
  | [], _, _ => by
    rw [Term.mapTagsAll, Emit.terms, Emit.terms]
    exact h.ret _
  | t :: ts, hc, hm => by
    rw [Term.mapTagsAll, Emit.terms, Emit.terms]
    rw [callSitesOfAll, List.forall_mem_append] at hc
    rw [Term.closuresOfAll, List.forall_mem_append] at hm
    exact h.seq (term t hc.1 hm.1) fun _ => terms ts hc.2 hm.2

theorem arrayElements (shell : StackKind) (kind : ArrayKind) (index : Nat) : ∀ ts : List Term,
    (∀ c ∈ callSitesOfAll ts, called c.name) → (∀ c ∈ Term.closuresOfAll ts, made c.1) →
    Alike R (arrayElements o shell kind index ts)
      (Emit.arrayElements o' shell kind index (Term.mapTagsAll g ts))
  | [], _, _ => by
    rw [Term.mapTagsAll, Emit.arrayElements, Emit.arrayElements]
    exact h.ret _
  | t :: ts, hc, hm => by
    rw [Term.mapTagsAll, Emit.arrayElements, Emit.arrayElements, Term.ty_mapTags,
      constant?_mapTags]
    rw [callSitesOfAll, List.forall_mem_append] at hc
    rw [Term.closuresOfAll, List.forall_mem_append] at hm
    have hrest := arrayElements shell kind (index + 1) ts hc.2 hm.2
    exact .ite (h.seq (h.lift _) fun k =>
      h.seq (term t hc.1 hm.1) fun _ => h.seq (h.emit rfl) fun _ =>
        h.seq (h.removeAt k _ []) fun _ => hrest) hrest

theorem listElements : ∀ ts : List Term, (∀ c ∈ callSitesOfAll ts, called c.name) →
    (∀ c ∈ Term.closuresOfAll ts, made c.1) →
    Alike R (listElements o ts) (Emit.listElements o' (Term.mapTagsAll g ts))
  | [], _, _ => by
    rw [Term.mapTagsAll, Emit.listElements, Emit.listElements]
    exact h.ret _
  | t :: ts, hc, hm => by
    rw [Term.mapTagsAll, Emit.listElements, Emit.listElements, Term.ty_mapTags]
    rw [callSitesOfAll, List.forall_mem_append] at hc
    rw [Term.closuresOfAll, List.forall_mem_append] at hm
    exact h.seq (h.lift _) fun k => h.seq (term t hc.1 hm.1) fun _ => h.seq (h.emit rfl) fun _ =>
      h.seq (h.removeAt k _ []) fun _ => listElements ts hc.2 hm.2

theorem compoundFields : ∀ fields : List (String × Term),
    (∀ c ∈ callSitesOfFields fields, called c.name) →
    (∀ c ∈ Term.closuresOfFields fields, made c.1) →
    Alike R (compoundFields o fields) (Emit.compoundFields o' (Term.mapTagsFields g fields))
  | [], _, _ => by
    rw [Term.mapTagsFields, Emit.compoundFields, Emit.compoundFields]
    exact h.ret _
  | (key, t) :: rest, hc, hm => by
    rw [Term.mapTagsFields, Emit.compoundFields, Emit.compoundFields, Term.ty_mapTags]
    rw [callSitesOfFields, List.forall_mem_append] at hc
    rw [Term.closuresOfFields, List.forall_mem_append] at hm
    exact h.seq (h.lift _) fun k => h.seq (term t hc.1 hm.1) fun _ => h.seq (h.emit rfl) fun _ =>
      h.seq (h.removeAt k _ []) fun _ => compoundFields rest hc.2 hm.2

end

end Relates

/-- What a function does on exit. -/
def exit (restore : Option Int32) : List Instruction :=
  (restore.map (.setScore .result ·)).toList

theorem alike_exit {R : List Instruction → List Instruction → Prop} {r r' : Option Int32} :
    R (exit r) (exit r') → Alike R
      (match r with
        | some n => emit (.setScore .result n)
        | none => pure ())
      (match r' with
        | some n => emit (.setScore .result n)
        | none => pure ()) := by
  intro h p p' hslots
  cases r <;> cases r'
  · exact .ok hslots (List.append_nil _).symm (List.append_nil _).symm h
  · exact .ok hslots (List.append_nil _).symm Array.toList_push h
  · exact .ok hslots Array.toList_push (List.append_nil _).symm h
  · exact .ok hslots Array.toList_push Array.toList_push h

/-- Code for a function, and code for it with other tags and another value to restore. -/
theorem Relates.functionBody {o o' : Options} {g : Nat → Nat} {made : Nat → Prop}
    {called : DefName → Prop} {R : List Instruction → List Instruction → Prop}
    (h : Relates o o' g made called R) (f : Flat.Function) (restore : Option Int32)
    (hc : ∀ c ∈ callSites f.body, called c.name) (hm : ∀ c ∈ f.body.closures, made c.1)
    (hexit : R (exit f.restore) (exit restore)) :
    Alike R (functionBody o f)
      (functionBody o' { f with body := f.body.mapTags g, restore := restore }) := by
  have hend := alike_exit hexit
  exact h.seq (h.comment _) fun _ => h.seq (h.follow _) fun _ => h.seq (h.bind f.binder) fun _ =>
    h.seq (h.term f.body hc hm) fun _ => .ite (h.seq (h.ask _) fun _ => hend)
      (h.seq (h.dropAll _ _) fun _ => h.seq (h.ask _) fun _ => hend)

/-- Both functions fail to be emitted in the same way, or their instructions are related. -/
theorem Relates.function {o o' : Options} {g : Nat → Nat} {made : Nat → Prop}
    {called : DefName → Prop} {R : List Instruction → List Instruction → Prop}
    (h : Relates o o' g made called R) (f : Flat.Function) (restore : Option Int32)
    (hc : ∀ c ∈ callSites f.body, called c.name) (hm : ∀ c ∈ f.body.closures, made c.1)
    (hexit : R (exit f.restore) (exit restore)) :
    (∃ e, function o f = .error e ∧
      function o' { f with body := f.body.mapTags g, restore := restore } = .error e) ∨
    ∃ is js, function o f = .ok is ∧
      function o' { f with body := f.body.mapTags g, restore := restore } = .ok js ∧ R is js := by
  unfold Emit.function
  rcases (h.functionBody f restore hc hm hexit).run .empty with
    ⟨e, hl, hr⟩ | ⟨a, p, p', hl, hr, hrel⟩
  · exact .inl ⟨e, by rw [StateT.run, hl]; rfl, by rw [StateT.run, hr]; rfl⟩
  · exact .inr ⟨_, _, by rw [StateT.run, hl]; rfl, by rw [StateT.run, hr]; rfl, hrel⟩

end Stagecraft.Emit
