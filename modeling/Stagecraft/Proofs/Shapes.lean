import Mathlib.Data.List.Forall2
import Stagecraft.Proofs.CellSemantics

/-!
# Shapes

Code generation looks at the kinds that types erase to. A binder that takes a record apart reads
fields of the record, and no kind tells which fields a record has. A shape is an erased type that
keeps the fields of records; `serves` is the order that record types have by their fields.

`isShaped` says of a term that the shape of every node serves for what its constructor pushes, and
of a binder that it serves for what it takes. Terms of this kind meet their weakest preconditions
(`termPre_of_isShaped`), if every callee takes and gives what the shapes at its call sites say.
-/

namespace Stagecraft.Emit

open Target (StackKind Nbt ScoreRange)
open Flat (Ty Pattern Term scalarKind arrayKind)

/-- The kind of stack that a data value goes to. -/
def kindOf : Nbt → StackKind
  | .byte _ => .byte
  | .short _ => .short
  | .int _ => .int
  | .long _ => .long
  | .float _ => .float
  | .double _ => .double
  | .string _ => .string
  | .byteArray _ => .byteArray
  | .intArray _ => .intArray
  | .longArray _ => .longArray
  | .list _ => .list
  | .compound _ => .compound

/-- What the slot of a value promises. -/
inductive Shape where
  | slot (kind : StackKind)
  /-- A record with these fields, and maybe others. -/
  | record (fields : List (String × Shape))

/-- The kind of the slot. -/
def Shape.kind : Shape → StackKind
  | .slot k => k
  | .record _ => .compound

mutual

/-- The slots of the values of a type. A field of several slots cannot be stored in a record. -/
def shapes : Ty → List Shape
  | .scalar s => [.slot (scalarKind s)]
  | .array kind => [.slot (arrayKind kind)]
  | .list _ => [.slot .list]
  | .compound fields => [.record (fieldShapes fields)]
  | .ref _ => [.slot .int]
  | .tuple es => shapesAll es
  | .function .. => [.record []]
  | .union [] => [.slot .endTag]
  | .union (e :: _) => shapes e

/-- The slots of several values, one after another. -/
def shapesAll : List Ty → List Shape
  | [] => []
  | t :: ts => shapes t ++ shapesAll ts

/-- The fields that take one slot. -/
def fieldShapes : List (String × Ty) → List (String × Shape)
  | [] => []
  | (key, t) :: rest =>
    match shapes t with
    | [σ] => (key, σ) :: fieldShapes rest
    | _ => fieldShapes rest

end

mutual

theorem kind_shapes : ∀ t : Ty, (shapes t).map Shape.kind = t.erase
  | .scalar _ | .array _ | .list _ | .compound _ | .ref _ | .function .. => by
    simp only [shapes, Ty.erase, List.map_cons, List.map_nil, Shape.kind]
  | .union [] => by simp only [shapes, Ty.erase, List.map_cons, List.map_nil, Shape.kind]
  | .union (e :: _) => by
    rw [shapes, Ty.erase]
    exact kind_shapes e
  | .tuple es => by
    rw [shapes, Ty.erase]
    exact kind_shapesAll es

theorem kind_shapesAll : ∀ ts : List Ty, (shapesAll ts).map Shape.kind = Ty.eraseAll ts
  | [] => rfl
  | t :: ts => by
    rw [shapesAll, Ty.eraseAll, List.map_append, kind_shapes t, kind_shapesAll ts]

end

theorem length_shapes (t : Ty) : (shapes t).length = t.erase.length := by
  rw [← kind_shapes, List.length_map]

mutual

/-- Whether a data value keeps the promise of a shape. -/
def Shape.Fits : Shape → Nbt → Prop
  | .slot k, v => k = .endTag ∨ kindOf v = k
  | .record fields, v => ∃ entries, v = .compound entries ∧ FieldsFit fields entries

/-- Whether a record has these fields. -/
def FieldsFit : List (String × Shape) → List (String × Nbt) → Prop
  | [], _ => True
  | (key, σ) :: rest, entries =>
    (∃ w, Keyed.find? key entries = some w ∧ σ.Fits w) ∧ FieldsFit rest entries

end

/-- Whether cells are those of a value with these slots. -/
def CellsFit (cs : Cells) (σs : List Shape) : Prop :=
  List.Forall₂ (fun c σ => c.1 = σ.kind ∧ σ.Fits c.2) cs σs

theorem CellsFit.kinds {cs : Cells} {σs : List Shape} (h : CellsFit cs σs) :
    cs.map (·.1) = σs.map Shape.kind := by
  induction h with
  | nil => rfl
  | cons h _ ih => rw [List.map_cons, List.map_cons, h.1, ih]

theorem CellsFit.erase {cs : Cells} {ty : Ty} (h : CellsFit cs (shapes ty)) :
    cs.map (·.1) = ty.erase :=
  h.kinds.trans (kind_shapes ty)

/-- The cells of a type of one slot. -/
theorem CellsFit.single {cs : Cells} {ty : Ty} {k : StackKind} (h : CellsFit cs (shapes ty))
    (hk : ty.erase = [k]) : ∃ v σ, cs = [(k, v)] ∧ shapes ty = [σ] ∧ σ.kind = k ∧ σ.Fits v := by
  obtain ⟨σ, hσ, rfl⟩ := List.map_eq_singleton_iff.1 ((kind_shapes ty).trans hk)
  rw [hσ] at h
  obtain ⟨⟨j, v⟩, l, ⟨rfl, hv⟩, hl, rfl⟩ := List.forall₂_cons_right_iff.1 h
  obtain rfl := List.forall₂_nil_right_iff.1 hl
  exact ⟨v, σ, rfl, hσ, rfl, hv⟩

theorem FieldsFit.find? {fields : List (String × Shape)} {entries : List (String × Nbt)}
    {key : String} {σ : Shape} (h : FieldsFit fields entries)
    (hσ : Keyed.find? key fields = some σ) :
    ∃ w, Keyed.find? key entries = some w ∧ σ.Fits w := by
  induction fields with
  | nil => cases hσ
  | cons f rest ih =>
    obtain ⟨k, τ⟩ := f
    rw [FieldsFit] at h
    rw [Keyed.find?] at hσ
    split at hσ
    · next hk =>
      cases hσ
      exact hk ▸ h.1
    · exact ih h.2 hσ

/-- The fields of a record after one is stored. -/
def withField (key : String) (σ : Shape) (fields : List (String × Shape)) :
    List (String × Shape) :=
  (key, σ) :: fields.filter fun f => f.1 ≠ key

theorem FieldsFit.withField {fields : List (String × Shape)} {entries : List (String × Nbt)}
    {key : String} {σ : Shape} {v : Nbt} (h : FieldsFit fields entries) (hv : σ.Fits v) :
    FieldsFit (withField key σ fields) (Keyed.insert key v entries) := by
  refine ⟨⟨v, by rw [Keyed.find?_insert, if_pos rfl], hv⟩, ?_⟩
  induction fields with
  | nil => trivial
  | cons f rest ih =>
    obtain ⟨k, τ⟩ := f
    rw [FieldsFit] at h
    rw [List.filter_cons]
    split
    · next hk =>
      have hne : key ≠ k := fun e => by simp [e] at hk
      rw [FieldsFit, Keyed.find?_insert, if_neg hne]
      exact ⟨h.1, ih h.2⟩
    · exact ih h.2

mutual

/-- Whether every value of one shape has another shape as well. -/
def Shape.serves (σ : Shape) : Shape → Bool
  | .slot j =>
    match σ with
    | .slot k => k == j
    | .record _ => false
  | .record needed =>
    match σ with
    | .slot _ => false
    | .record fields => fieldsServe fields needed

/-- Whether every record with these fields has the fields needed. -/
def fieldsServe (fields : List (String × Shape)) : List (String × Shape) → Bool
  | [] => true
  | (key, τ) :: rest =>
    (match Keyed.find? key fields with
      | some σ => σ.serves τ
      | none => false) && fieldsServe fields rest

end

/-- Whether values with these slots have all the slots needed, one for one. -/
def allServe : List Shape → List Shape → Bool
  | [], [] => true
  | σ :: σs, τ :: τs => σ.serves τ && allServe σs τs
  | _, _ => false

theorem Shape.kind_of_serves {σ τ : Shape} (h : σ.serves τ) : σ.kind = τ.kind := by
  cases τ <;> cases σ <;> simp_all [Shape.serves, Shape.kind]

mutual

theorem Shape.Fits.of_serves : ∀ {σ τ : Shape} {v : Nbt}, σ.serves τ → σ.Fits v → τ.Fits v
  | σ, .slot j, v, h, hv => by
    cases σ with
    | record => simp [Shape.serves] at h
    | slot k =>
      simp only [Shape.serves, beq_iff_eq] at h
      exact h ▸ hv
  | σ, .record needed, v, h, hv => by
    cases σ with
    | slot => simp [Shape.serves] at h
    | record fields =>
      rw [Shape.serves] at h
      obtain ⟨entries, rfl, hentries⟩ := hv
      exact ⟨entries, rfl, FieldsFit.of_serves h hentries⟩

theorem FieldsFit.of_serves : ∀ {fields needed : List (String × Shape)}
    {entries : List (String × Nbt)}, fieldsServe fields needed → FieldsFit fields entries →
    FieldsFit needed entries
  | _, [], _, _, _ => trivial
  | fields, (key, τ) :: rest, entries, h, hentries => by
    rw [fieldsServe, Bool.and_eq_true] at h
    obtain ⟨hτ, hrest⟩ := h
    split at hτ
    · next σ hσ =>
      obtain ⟨w, hw, hfit⟩ := hentries.find? hσ
      exact ⟨⟨w, hw, hfit.of_serves hτ⟩, FieldsFit.of_serves hrest hentries⟩
    · cases hτ

end

theorem CellsFit.of_serves {cs : Cells} {σs τs : List Shape} (h : allServe σs τs)
    (hcs : CellsFit cs σs) : CellsFit cs τs := by
  induction hcs generalizing τs with
  | nil =>
    cases τs with
    | nil => exact .nil
    | cons => simp [allServe] at h
  | cons hc _ ih =>
    cases τs with
    | nil => simp [allServe] at h
    | cons τ τs =>
      rw [allServe, Bool.and_eq_true] at h
      exact .cons ⟨hc.1.trans (Shape.kind_of_serves h.1), hc.2.of_serves h.1⟩ (ih h.2)

/-! ## Patterns and terms of a shape -/

/-- Variables in scope with the slots that they promise, the innermost first. -/
abbrev Scoped := List (Nat × List Shape)

/-- The slots of what several patterns take. -/
def patternShapes : List Pattern → List Shape
  | [] => []
  | p :: ps => shapes p.ty ++ patternShapes ps

/-- The fields of what a record pattern takes. -/
def fieldPatternShapes : List (String × Pattern) → List (String × Shape)
  | [] => []
  | (key, p) :: rest =>
    match shapes p.ty with
    | [σ] => (key, σ) :: fieldPatternShapes rest
    | _ => fieldPatternShapes rest

mutual

/-- Whether the type of every node of a pattern serves for what its parts take. -/
def patternIsShaped : Pattern → Bool
  | .int info _ | .range info _ _ => allServe (shapes info.ty) [.slot .int]
  | .var .. | .wildcard _ => true
  | .tuple info ps => allServe (shapes info.ty) (patternShapes ps) && patternsAreShaped ps
  | .compound info fields =>
    allServe (shapes info.ty) [.record (fieldPatternShapes fields)] &&
      fieldPatternsAreShaped fields
  | .list _ ps => patternsAreShaped ps

/-- Whether several patterns are shaped. -/
def patternsAreShaped : List Pattern → Bool
  | [] => true
  | p :: ps => patternIsShaped p && patternsAreShaped ps

/-- Whether the patterns of record fields are shaped. -/
def fieldPatternsAreShaped : List (String × Pattern) → Bool
  | [] => true
  | (_, p) :: rest => patternIsShaped p && fieldPatternsAreShaped rest

end

mutual

/-- The variables of a pattern: first those that are copied out of records, then the others. -/
def scopes : Pattern → Scoped × Scoped
  | .var info v => ([], [(v.level, shapes info.ty)])
  | .tuple _ ps => scopesAll ps
  | .compound _ fields => (fieldScopes fields, [])
  | .int .. | .range .. | .wildcard _ | .list .. => ([], [])

/-- The variables of several patterns. -/
def scopesAll : List Pattern → Scoped × Scoped
  | [] => ([], [])
  | p :: ps => ((scopes p).1 ++ (scopesAll ps).1, (scopesAll ps).2 ++ (scopes p).2)

/-- The variables of the patterns of record fields. -/
def fieldScopes : List (String × Pattern) → Scoped
  | [] => []
  | (_, p) :: rest => fieldScopes rest ++ ((scopes p).1 ++ (scopes p).2)

end

/-- The scope inside a binder. -/
def Scoped.bind (Γ : Scoped) (p : Pattern) : Scoped := (scopes p).1 ++ (scopes p).2 ++ Γ

/-- Whether a variable in scope serves at a type. -/
def varServes (Γ : Scoped) (level : Nat) (ty : Ty) : Bool :=
  match Keyed.find? level Γ with
  | some σs => allServe σs (shapes ty)
  | none => false

/-- The slots of several terms. -/
def termShapes : List Term → List Shape
  | [] => []
  | t :: ts => shapes t.ty ++ termShapes ts

/-- The fields of a record after more fields are stored. -/
def madeShapes (made : List (String × Shape)) : List (String × Term) → List (String × Shape)
  | [] => made
  | (key, t) :: rest =>
    match shapes t.ty with
    | [σ] => madeShapes (withField key σ made) rest
    | _ => madeShapes made rest

mutual

/-- Whether the type of every node of a term serves for what its constructor pushes. No binder
keeps its slots, and commands have no slots. -/
def isShaped (Γ : Scoped) : Term → Bool
  | .literal ty l => allServe [.slot (kindOf (.ofLiteral l))] (shapes ty)
  | .array ty kind es =>
    allServe [.slot (arrayKind kind)] (shapes ty) && elementsAreShaped Γ (scalarKind kind.scalar) es
  | .list ty es => allServe [.slot .list] (shapes ty) && areShaped Γ es
  | .compound ty fields =>
    allServe [.record (madeShapes [] fields)] (shapes ty) && fieldsAreShaped Γ fields
  | .ref _ e => isShaped Γ e
  | .tuple ty es => allServe (termShapes es) (shapes ty) && areShaped Γ es
  | .closure ty _ captures =>
    allServe [.record []] (shapes ty) && captures.all fun c => varServes Γ c.v.level c.ty
  | .branch _ c a _ _ => isShaped Γ c && isShaped Γ a && allServe (shapes c.ty) [.slot .byte]
  | .letIn ty binder init body =>
    !binder.has .noDrop && patternIsShaped binder && isShaped Γ init &&
      allServe (shapes init.ty) (shapes binder.ty) && isShaped (Γ.bind binder) body &&
        allServe (shapes body.ty) (shapes ty)
  | .var ty v => varServes Γ v.level ty
  | .call _ _ a => isShaped Γ a
  | .test ty e p =>
    isShaped Γ e && patternIsShaped p && allServe (shapes e.ty) (shapes p.ty) &&
      allServe [.slot .byte] (shapes ty)
  | .command ty _ => ty.erase.all (· == .endTag)

/-- Whether several terms are shaped. -/
def areShaped (Γ : Scoped) : List Term → Bool
  | [] => true
  | t :: ts => isShaped Γ t && areShaped Γ ts

/-- Whether the elements of an array are shaped, each in one slot of a kind. -/
def elementsAreShaped (Γ : Scoped) (kind : StackKind) : List Term → Bool
  | [] => true
  | t :: ts => isShaped Γ t && allServe (shapes t.ty) [.slot kind] && elementsAreShaped Γ kind ts

/-- Whether the fields of a record are shaped. -/
def fieldsAreShaped (Γ : Scoped) : List (String × Term) → Bool
  | [] => true
  | (_, t) :: rest => isShaped Γ t && fieldsAreShaped Γ rest

end

/-! ## Kinds alone -/

/-- The kinds of the slots of variables in scope. -/
def Scoped.kinds (Γ : Scoped) : List (Nat × List StackKind) :=
  Γ.map fun v => (v.1, v.2.map Shape.kind)

mutual

/-- Whether the kinds of every node of a pattern are those of its parts. -/
def patternKindsAgree : Pattern → Bool
  | .int info _ | .range info _ _ => info.ty.erase == [.int]
  | .var .. | .wildcard _ => true
  | .tuple info ps => info.ty.erase == (ps.flatMap fun p => p.ty.erase) && patternsKindsAgree ps
  | .compound info fields => info.ty.erase == [.compound] && fieldPatternsKindsAgree fields
  | .list info ps => info.ty.erase == [.list] && patternsKindsAgree ps

/-- Whether the kinds in several patterns agree. -/
def patternsKindsAgree : List Pattern → Bool
  | [] => true
  | p :: ps => patternKindsAgree p && patternsKindsAgree ps

/-- Whether the kinds in the patterns of record fields agree. -/
def fieldPatternsKindsAgree : List (String × Pattern) → Bool
  | [] => true
  | (_, p) :: rest => patternKindsAgree p && fieldPatternsKindsAgree rest

end

mutual

/-- Whether the type of every node of a term erases to what its constructor pushes, and that of
every pattern to what it is matched against. Nothing is said about the fields of records. -/
def kindsAgree (Γ : List (Nat × List StackKind)) : Term → Bool
  | .literal ty l => ty.erase == [kindOf (.ofLiteral l)]
  | .array ty kind es => ty.erase == [arrayKind kind] && allKindsAgree Γ es
  | .list ty es => ty.erase == [.list] && allKindsAgree Γ es
  | .compound ty fields => ty.erase == [.compound] && fieldKindsAgree Γ fields
  | .ref ty e => ty.erase == [.int] && kindsAgree Γ e
  | .tuple ty es => ty.erase == (es.flatMap fun e => e.ty.erase) && allKindsAgree Γ es
  | .closure ty _ captures => ty.erase == [.compound] &&
      captures.all fun c => Keyed.find? c.v.level Γ == some c.ty.erase
  | .branch _ c a _ _ => c.ty.erase == [.byte] && kindsAgree Γ c && kindsAgree Γ a
  | .letIn ty p init body => p.ty.erase == init.ty.erase && patternKindsAgree p &&
      kindsAgree Γ init && ty.erase == body.ty.erase &&
      kindsAgree ((Scoped.bind [] p).kinds ++ Γ) body
  | .var ty v => Keyed.find? v.level Γ == some ty.erase
  | .call _ _ a => kindsAgree Γ a
  | .test ty e p => ty.erase == [.byte] && p.ty.erase == e.ty.erase && patternKindsAgree p &&
      kindsAgree Γ e
  | .command .. => true

/-- Whether the kinds in several terms agree. -/
def allKindsAgree (Γ : List (Nat × List StackKind)) : List Term → Bool
  | [] => true
  | t :: ts => kindsAgree Γ t && allKindsAgree Γ ts

/-- Whether the kinds in the fields of a record agree. -/
def fieldKindsAgree (Γ : List (Nat × List StackKind)) : List (String × Term) → Bool
  | [] => true
  | (_, t) :: rest => kindsAgree Γ t && fieldKindsAgree Γ rest

end

end Stagecraft.Emit
