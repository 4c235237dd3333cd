import Stagecraft.Proofs.Shapes
import Stagecraft.Proofs.TermEmission

/-!
# Stack discipline at run time

A function whose nodes are shaped, compiled to instructions, replaces its argument on top of the
stacks by its result, whatever lies below, if every function it calls does (`behaves_of_function`).
`Behaves` speaks of a family of machines at once: the code does the same on each of them, so it
does not read what differs between them, in particular not what lies below the argument.
-/

namespace Stagecraft.Emit

open Target (StackKind PerKind Nbt Location Instruction)
open Machine (State Program Ends Calls run leads ends_of_leads)
open Flat (Ty Pattern Term scalarKind arrayKind)
open Emit.Frame (held ofBindings)

/-! ## Binders and tests of a shape -/

/-- Cells of variables keep what their scope promises. -/
def ScopeFits (ρ : Bound) (Γ : Scoped) : Prop :=
  List.Forall₂ (fun b g => b.1 = g.1 ∧ CellsFit b.2 g.2) ρ Γ

theorem ScopeFits.append {ρ ρ' : Bound} {Γ Γ' : Scoped} (h : ScopeFits ρ Γ)
    (h' : ScopeFits ρ' Γ') : ScopeFits (ρ ++ ρ') (Γ ++ Γ') :=
  List.rel_append h h'

theorem ScopeFits.find? {ρ : Bound} {Γ : Scoped} {level : Nat} {σs : List Shape}
    (h : ScopeFits ρ Γ) (hσ : Keyed.find? level Γ = some σs) :
    ∃ vs, Keyed.find? level ρ = some vs ∧ CellsFit vs σs := by
  induction h with
  | nil => cases hσ
  | @cons b g _ _ hb _ ih =>
    obtain ⟨l, vs⟩ := b
    obtain ⟨l', τs⟩ := g
    obtain ⟨rfl, hfit⟩ := hb
    rw [Keyed.find?] at hσ ⊢
    split at hσ
    · next hl =>
      cases hσ
      exact ⟨vs, if_pos hl, hfit⟩
    · next hl =>
      obtain ⟨ws, hws, hfit⟩ := ih hσ
      exact ⟨ws, by rw [if_neg hl, hws], hfit⟩

theorem CellsFit.split {cs : Cells} {ty : Ty} {σs : List Shape}
    (h : CellsFit cs (shapes ty ++ σs)) :
    CellsFit (cs.take ty.erase.length) (shapes ty) ∧ CellsFit (cs.drop ty.erase.length) σs := by
  rw [← length_shapes]
  exact ⟨List.forall₂_take_append cs _ σs h, List.forall₂_drop_append cs _ σs h⟩

theorem CellsFit.record {cs : Cells} {fields : List (String × Shape)}
    (h : CellsFit cs [.record fields]) :
    ∃ entries, cs = [(.compound, .compound entries)] ∧ FieldsFit fields entries := by
  obtain ⟨⟨j, v⟩, l, ⟨hj, entries, hv, hfit⟩, hl, rfl⟩ := List.forall₂_cons_right_iff.1 h
  obtain rfl := List.forall₂_nil_right_iff.1 hl
  cases hj
  cases hv
  exact ⟨entries, rfl, hfit⟩

theorem CellsFit.slot {cs : Cells} {k : StackKind} (h : CellsFit cs [.slot k])
    (hk : k ≠ .endTag) : ∃ v, cs = [(k, v)] ∧ kindOf v = k := by
  obtain ⟨⟨j, v⟩, l, ⟨hj, hv⟩, hl, rfl⟩ := List.forall₂_cons_right_iff.1 h
  obtain rfl := List.forall₂_nil_right_iff.1 hl
  cases hj
  exact ⟨v, rfl, hv.resolve_left hk⟩

mutual

/-- A shaped binder can take apart what it takes, and its variables keep what they promise. -/
theorem binderPre_of_isShaped : ∀ {p : Pattern} {cs : Cells} {Q : Bound → Bound → Prop},
    patternIsShaped p → CellsFit cs (shapes p.ty) → (∀ copied kept,
      ScopeFits copied (scopes p).1 → ScopeFits kept (scopes p).2 → Q copied kept) →
    binderPre p cs Q
  | .var info v, cs, _, _, hcs, hQ => ⟨hcs.erase, hQ _ _ .nil (.cons ⟨rfl, hcs⟩ .nil)⟩
  | .int info _, cs, _, h, hcs, hQ | .range info _ _, cs, _, h, hcs, hQ =>
    ⟨(CellsFit.of_serves h hcs).kinds, hQ _ _ .nil .nil⟩
  | .wildcard info, cs, _, _, hcs, hQ => ⟨hcs.erase, hQ _ _ .nil .nil⟩
  | .tuple info ps, cs, _, h, hcs, hQ => by
    rw [patternIsShaped, Bool.and_eq_true] at h
    exact bindersPre_of_areShaped (l := ps) h.2 (CellsFit.of_serves h.1 hcs) hQ
  | .compound info fields, cs, _, h, hcs, hQ => by
    rw [patternIsShaped, Bool.and_eq_true] at h
    obtain ⟨entries, rfl, hfit⟩ := (CellsFit.of_serves h.1 hcs).record
    exact ⟨entries, rfl, fieldBindersPre_of_areShaped (l := fields) h.2 hfit fun copied hc =>
      hQ _ _ hc .nil⟩
  | .list .., _, _, _, _, _ => trivial

theorem bindersPre_of_areShaped : ∀ {l : List Pattern} {cs : Cells} {Q : Bound → Bound → Prop},
    patternsAreShaped l → CellsFit cs (patternShapes l) → (∀ copied kept,
      ScopeFits copied (scopesAll l).1 → ScopeFits kept (scopesAll l).2 → Q copied kept) →
    bindersPre l cs Q
  | [], _, _, _, hcs, hQ => ⟨List.forall₂_nil_right_iff.1 hcs, hQ _ _ .nil .nil⟩
  | p :: ps, cs, _, h, hcs, hQ => by
    rw [patternsAreShaped, Bool.and_eq_true] at h
    obtain ⟨hfirst, hlater⟩ := CellsFit.split hcs
    refine bindersPre_of_areShaped (l := ps) h.2 hlater fun copied kept hc hk => ?_
    exact binderPre_of_isShaped (p := p) h.1 hfirst fun copied' kept' hc' hk' =>
      hQ _ _ (hc'.append hc) (hk.append hk')

theorem fieldBindersPre_of_areShaped : ∀ {l : List (String × Pattern)}
    {entries : List (String × Nbt)} {Q : Bound → Prop}, fieldPatternsAreShaped l →
    FieldsFit (fieldPatternShapes l) entries →
    (∀ copied, ScopeFits copied (fieldScopes l) → Q copied) →
    fieldBindersPre l entries Q
  | [], _, _, _, _, hQ => hQ _ .nil
  | (key, p) :: rest, entries, _, h, hfit, hQ => by
    rw [fieldPatternsAreShaped, Bool.and_eq_true] at h
    intro k hk
    obtain ⟨σ, hσ, rfl⟩ := List.map_eq_singleton_iff.1 ((kind_shapes p.ty).trans hk)
    rw [fieldPatternShapes, hσ, FieldsFit] at hfit
    obtain ⟨⟨v, hv, hfits⟩, hrest⟩ := hfit
    have hcell : CellsFit [(σ.kind, v)] (shapes p.ty) := by
      rw [hσ]
      exact .cons ⟨rfl, hfits⟩ .nil
    refine ⟨v, hv, binderPre_of_isShaped (p := p) h.1 hcell fun copied kept hc hk => ?_⟩
    exact fieldBindersPre_of_areShaped (l := rest) h.2 hrest fun later hl =>
      hQ _ (hl.append (hc.append hk))

end

theorem rangePre_of_fits {range : Target.ScoreRange} {cs : Cells} {Q : Bool → Prop}
    (hcs : CellsFit cs [.slot .int]) (hQ : ∀ b, Q b) : rangePre range cs Q := by
  obtain ⟨v, rfl, hv⟩ := hcs.slot (by decide)
  cases v <;> cases hv
  next n => exact ⟨_, n, rfl, rfl, hQ _⟩

mutual

/-- A shaped test has an answer. -/
theorem testerPre_of_isShaped : ∀ {p : Pattern} {cs : Cells} {Q : Bool → Prop},
    patternIsShaped p → CellsFit cs (shapes p.ty) → (∀ b, Q b) → testerPre p cs Q
  | .int info _, _, _, h, hcs, hQ | .range info _ _, _, _, h, hcs, hQ =>
    rangePre_of_fits (CellsFit.of_serves h hcs) hQ
  | .tuple info ps, _, _, h, hcs, hQ => by
    rw [patternIsShaped, Bool.and_eq_true] at h
    exact testersPre_of_areShaped (l := ps) h.2 (CellsFit.of_serves h.1 hcs) hQ
  | .var .., _, _, _, hcs, hQ | .wildcard _, _, _, _, hcs, hQ => ⟨hcs.erase, hQ true⟩
  | .list .., _, _, _, _, _ | .compound .., _, _, _, _, _ => trivial

theorem testersPre_of_areShaped : ∀ {l : List Pattern} {cs : Cells} {Q : Bool → Prop},
    patternsAreShaped l → CellsFit cs (patternShapes l) → (∀ b, Q b) → testersPre l cs Q
  | [], _, _, _, hcs, hQ => ⟨List.forall₂_nil_right_iff.1 hcs, hQ true⟩
  | p :: ps, _, _, h, hcs, hQ => by
    rw [patternsAreShaped, Bool.and_eq_true] at h
    obtain ⟨hfirst, hlater⟩ := CellsFit.split hcs
    exact testersPre_of_areShaped (l := ps) h.2 hlater fun _ =>
      testerPre_of_isShaped (p := p) h.1 hfirst fun _ => hQ _

end

/-! ## Terms of a shape -/

/-- A call in a term: what it calls with what, and whether the result register must stay positive
over it. -/
structure CallSite where
  name : DefName
  keeps : Bool
  param : Ty
  result : Ty

mutual

/-- The calls in a term. -/
def callSites : Term → List CallSite
  | .literal .. | .closure .. | .var .. | .command .. => []
  | .array _ _ es | .list _ es | .tuple _ es => callSitesOfAll es
  | .compound _ fields => callSitesOfFields fields
  | .ref _ e | .test _ e _ => callSites e
  | .branch ty c a thenName elseName =>
    ⟨thenName, true, a.ty, ty⟩ :: ⟨elseName, false, a.ty, ty⟩ :: (callSites c ++ callSites a)
  | .letIn _ _ init body => callSites init ++ callSites body
  | .call ty name a => ⟨name, false, a.ty, ty⟩ :: callSites a

/-- The calls in several terms. -/
def callSitesOfAll : List Term → List CallSite
  | [] => []
  | t :: ts => callSites t ++ callSitesOfAll ts

/-- The calls in the fields of a record. -/
def callSitesOfFields : List (String × Term) → List CallSite
  | [] => []
  | (_, t) :: rest => callSites t ++ callSitesOfFields rest

end

/-- Callees that take and give what is said at some call sites. -/
def calleesOf (sites : List CallSite) : Callees where
  pre name keeps as Q := ∃ c ∈ sites, c.name = name ∧ (keeps → c.keeps) ∧
    CellsFit as (shapes c.param) ∧ ∀ rs, CellsFit rs (shapes c.result) → Q rs
  mono := by
    rintro name keeps as P Q hPQ ⟨c, hc, hname, hkeeps, has, h⟩
    exact ⟨c, hc, hname, hkeeps, has, fun rs hrs => hPQ rs (h rs hrs)⟩

theorem callPre_calleesOf {sites : List CallSite} {c : CallSite} (hc : c ∈ sites) {as : Cells}
    (has : CellsFit as (shapes c.param)) {Q : Cells → Prop}
    (hQ : ∀ rs, CellsFit rs (shapes c.result) → Q rs) :
    callPre (calleesOf sites) c.name c.keeps as c.result Q :=
  ⟨c, hc, rfl, id, has, fun rs hrs => ⟨hrs.erase, hQ rs hrs⟩⟩

theorem ScopeFits.varServes {ρ : Bound} {Γ : Scoped} {level : Nat} {ty : Ty}
    (h : ScopeFits ρ Γ) (hv : varServes Γ level ty) :
    ∃ vs, Keyed.find? level ρ = some vs ∧ CellsFit vs (shapes ty) := by
  rw [Emit.varServes] at hv
  split at hv
  · next σs hσ =>
    obtain ⟨vs, hvs, hfit⟩ := h.find? hσ
    exact ⟨vs, hvs, hfit.of_serves hv⟩
  · cases hv

theorem capturesPre_of_areShaped {ρ : Bound} {Γ : Scoped} (hρ : ScopeFits ρ Γ)
    {Q : List (String × Nbt) → Prop} (hQ : ∀ fields, Q fields) :
    ∀ {captures : List Flat.Capture} {fields : List (String × Nbt)},
      (captures.all fun c => varServes Γ c.v.level c.ty) → capturesPre ρ captures fields Q
  | [], fields, _ => hQ fields
  | c :: rest, fields, h => by
    rw [List.all_cons, Bool.and_eq_true] at h
    rw [capturesPre]
    split
    · exact capturesPre_of_areShaped hρ hQ h.2
    · intro k hk
      obtain ⟨vs, hvs, hfit⟩ := hρ.varServes h.1
      obtain ⟨v, -, rfl, -⟩ := hfit.single hk
      exact ⟨v, hvs, capturesPre_of_areShaped hρ hQ h.2⟩

/-- Whether a data value is an array of a kind and a length. -/
def isArray (kind : ArrayKind) (n : Nat) : Nbt → Prop
  | .byteArray es => kind = .byte ∧ es.length = n
  | .intArray es => kind = .int ∧ es.length = n
  | .longArray es => kind = .long ∧ es.length = n
  | _ => False

theorem isArray_arrayShell (kind : ArrayKind) (es : List Term) :
    isArray kind es.length (arrayShell kind es) := by
  cases kind <;> simp [arrayShell, isArray]

theorem kindOf_isArray {kind : ArrayKind} {n : Nat} {v : Nbt} (h : isArray kind n v) :
    kindOf v = arrayKind kind := by
  cases v <;> simp only [isArray] at h <;> obtain ⟨rfl, -⟩ := h <;> rfl

/-- An element of its kind can be put into an array, at an index that it has. -/
theorem isArray.withPart {kind : ArrayKind} {n i : Nat} {v e : Nbt} (h : isArray kind n v)
    (hi : i < n) (hn : n < 2 ^ 31) (he : kindOf e = scalarKind kind.scalar) :
    ∃ w, isArray kind n w ∧
      ∀ m, Machine.withPart m (.index (Int32.ofNat i)) e v = .ok w := by
  have hreplaced : ∀ {α : Type} (es : List α) (x : α) (m : Machine.Error), es.length = n →
      Machine.replaced m es (Int32.ofNat i) x = .ok (es.set i x) := fun es x m hes =>
    replaced_ofNat (hes ▸ hi) (hes ▸ hn) m x
  cases v <;> simp only [isArray] at h <;> obtain ⟨rfl, hlen⟩ := h <;> cases e <;> cases he
  case byteArray.byte.refl es b =>
    exact ⟨.byteArray (es.set i b), ⟨rfl, by rw [List.length_set, hlen]⟩, fun m => by
      rw [Machine.withPart, hreplaced es b m hlen]; rfl⟩
  case intArray.int.refl es b =>
    exact ⟨.intArray (es.set i b), ⟨rfl, by rw [List.length_set, hlen]⟩, fun m => by
      rw [Machine.withPart, hreplaced es b m hlen]; rfl⟩
  case longArray.long.refl es b =>
    exact ⟨.longArray (es.set i b), ⟨rfl, by rw [List.length_set, hlen]⟩, fun m => by
      rw [Machine.withPart, hreplaced es b m hlen]; rfl⟩

theorem cellsFit_of_endTag {σs : List Shape} (h : ∀ k ∈ σs.map Shape.kind, k = .endTag) :
    CellsFit ((σs.map Shape.kind).map fun k => (k, default)) σs := by
  induction σs with
  | nil => exact .nil
  | cons σ σs ih =>
    rw [List.map_cons, List.map_cons]
    refine .cons ⟨rfl, ?_⟩ (ih fun k hk => h k (List.mem_cons_of_mem _ hk))
    have hσ : σ.kind = .endTag := h _ List.mem_cons_self
    cases σ with
    | slot k => exact .inl hσ
    | record => cases hσ

section

variable {sites : List CallSite}

mutual

/-- A shaped term leaves cells that keep the promise of its type. -/
theorem termPre_of_isShaped : ∀ {t : Term} {Γ : Scoped} {ρ : Bound} {Q : Cells → Prop},
    isShaped Γ t → ScopeFits ρ Γ → termWeight t < 2 ^ 31 → callSites t ⊆ sites →
    (∀ cs, CellsFit cs (shapes t.ty) → Q cs) → termPre (calleesOf sites) t ρ Q
  | .literal ty l, _, _, _, h, _, _, _, hQ => fun k hk => by
    have hcell : CellsFit [(kindOf (.ofLiteral l), .ofLiteral l)]
        [.slot (kindOf (.ofLiteral l))] := .cons ⟨rfl, .inr rfl⟩ .nil
    obtain rfl : kindOf (.ofLiteral l) = k := by
      simpa using ((hcell.of_serves h).erase.trans hk)
    exact hQ _ (hcell.of_serves h)
  | .array ty kind es, Γ, _, _, h, hρ, hw, hs, hQ => fun k hk => by
    rw [isShaped, Bool.and_eq_true] at h
    have hcell : ∀ v, isArray kind es.length v →
        CellsFit [(arrayKind kind, v)] (shapes ty) := fun v hv =>
      CellsFit.of_serves h.1 (.cons ⟨rfl, .inr (kindOf_isArray hv)⟩ .nil)
    obtain rfl : arrayKind kind = k := by
      simpa using (hcell _ (isArray_arrayShell kind es)).erase.trans hk
    rw [termWeight] at hw
    exact elementsPre_of_areShaped (n := es.length) h.2 hρ (by omega) hs (by omega) (by omega)
      (isArray_arrayShell kind es) fun v hv => hQ _ (hcell v hv)
  | .list ty es, Γ, _, _, h, hρ, hw, hs, hQ => by
    rw [isShaped, Bool.and_eq_true] at h
    rw [termWeight] at hw
    exact listPre_of_areShaped h.2 hρ (by omega) hs fun vs => hQ _
      (CellsFit.of_serves h.1 (.cons ⟨rfl, .inr rfl⟩ .nil))
  | .compound ty fields, Γ, _, _, h, hρ, hw, hs, hQ => by
    rw [isShaped, Bool.and_eq_true] at h
    rw [termWeight] at hw
    exact fieldsPre_of_areShaped (m := []) h.2 hρ (by omega) hs trivial fun vs hvs => hQ _
      (CellsFit.of_serves h.1 (.cons ⟨rfl, vs, rfl, hvs⟩ .nil))
  | .ref .., _, _, _, _, _, _, _, _ => trivial
  | .tuple ty es, _, _, _, h, hρ, hw, hs, hQ => by
    rw [isShaped, Bool.and_eq_true] at h
    exact termsPre_of_areShaped h.2 hρ hw hs fun cs hcs => hQ cs (hcs.of_serves h.1)
  | .closure ty _ captures, _, _, _, h, hρ, _, _, hQ => by
    rw [isShaped, Bool.and_eq_true] at h
    exact capturesPre_of_areShaped hρ (fun fields => hQ _
      (CellsFit.of_serves h.1 (.cons ⟨rfl, fields, rfl, trivial⟩ .nil))) h.2
  | .branch ty c a thenName elseName, _, _, _, h, hρ, hw, hs, hQ => by
    simp only [isShaped, Bool.and_eq_true] at h
    obtain ⟨⟨hc, ha⟩, hbyte⟩ := h
    rw [termWeight] at hw
    simp only [callSites, List.cons_subset, List.append_subset] at hs
    obtain ⟨hthen, helse, hcs, has⟩ := hs
    refine termPre_of_isShaped (t := c) hc hρ (by omega) hcs fun cs hcells => ?_
    obtain ⟨v, rfl, hv⟩ := (hcells.of_serves hbyte).slot (by decide)
    cases v <;> cases hv
    next n =>
    refine ⟨_, n.toInt32, rfl, rfl, ?_⟩
    refine termPre_of_isShaped (t := a) ha hρ (by omega) has fun as hcells => ?_
    exact ⟨hcells.erase, fun _ => callPre_calleesOf hthen hcells hQ,
      fun _ => callPre_calleesOf helse hcells hQ⟩
  | .letIn ty binder init body, Γ, ρ, _, h, hρ, hw, hs, hQ => by
    simp only [isShaped, Bool.and_eq_true, Bool.not_eq_true'] at h
    obtain ⟨⟨⟨⟨⟨hdrop, hbinder⟩, hinit⟩, hserve⟩, hbody⟩, hty⟩ := h
    rw [termWeight] at hw
    simp only [callSites, List.append_subset] at hs
    refine ⟨hdrop, termPre_of_isShaped (t := init) hinit hρ (by omega) hs.1 fun cs hcs => ?_⟩
    refine binderPre_of_isShaped hbinder (hcs.of_serves hserve) fun copied kept hc hk => ?_
    refine termPre_of_isShaped (t := body) hbody ((hc.append hk).append hρ) (by omega) hs.2
      fun rs hrs => ?_
    exact ⟨hrs.erase, hQ rs (hrs.of_serves hty)⟩
  | .var ty v, _, _, _, h, hρ, _, _, hQ => by
    obtain ⟨vs, hvs, hfit⟩ := hρ.varServes h
    exact ⟨vs, hvs, hfit.erase, hQ vs hfit⟩
  | .call ty name a, _, _, _, h, hρ, hw, hs, hQ => by
    rw [termWeight] at hw
    simp only [callSites, List.cons_subset] at hs
    refine termPre_of_isShaped (t := a) h hρ (by omega) hs.2 fun as hcells => ?_
    exact ⟨hcells.erase, callPre_calleesOf hs.1 hcells hQ⟩
  | .test ty e p, _, _, _, h, hρ, hw, hs, hQ => by
    simp only [isShaped, Bool.and_eq_true] at h
    obtain ⟨⟨⟨he, hp⟩, hserve⟩, hty⟩ := h
    rw [termWeight] at hw
    refine termPre_of_isShaped (t := e) he hρ (by omega) hs fun cs hcells => ?_
    exact testerPre_of_isShaped hp (hcells.of_serves hserve) fun b => hQ _
      (CellsFit.of_serves hty (.cons ⟨rfl, .inr rfl⟩ .nil))
  | .command ty _, _, _, _, h, _, _, _, hQ => by
    simp only [isShaped, List.all_eq_true, beq_iff_eq] at h
    refine ⟨h, hQ _ ?_⟩
    rw [← kind_shapes] at h ⊢
    exact cellsFit_of_endTag h

theorem termsPre_of_areShaped : ∀ {l : List Term} {Γ : Scoped} {ρ : Bound} {Q : Cells → Prop},
    areShaped Γ l → ScopeFits ρ Γ → termsWeight l < 2 ^ 31 → callSitesOfAll l ⊆ sites →
    (∀ cs, CellsFit cs (termShapes l) → Q cs) → termsPre (calleesOf sites) l ρ Q
  | [], _, _, _, _, _, _, _, hQ => hQ [] .nil
  | t :: ts, _, _, _, h, hρ, hw, hs, hQ => by
    rw [areShaped, Bool.and_eq_true] at h
    rw [termsWeight] at hw
    rw [callSitesOfAll, List.append_subset] at hs
    refine termPre_of_isShaped (t := t) h.1 hρ (by omega) hs.1 fun cs hcs => ?_
    exact termsPre_of_areShaped (l := ts) h.2 hρ (by omega) hs.2 fun ds hds =>
      hQ _ (List.rel_append hcs hds)

theorem elementsPre_of_areShaped : ∀ {l : List Term} {Γ : Scoped} {ρ : Bound}
    {kind : ArrayKind} {index n : Nat} {v : Nbt} {Q : Nbt → Prop},
    elementsAreShaped Γ (scalarKind kind.scalar) l → ScopeFits ρ Γ →
    termsWeight l < 2 ^ 31 → callSitesOfAll l ⊆ sites → index + l.length = n → n < 2 ^ 31 →
    isArray kind n v → (∀ w, isArray kind n w → Q w) →
    elementsPre (calleesOf sites) (arrayKind kind) kind index l ρ v Q
  | [], _, _, _, _, _, _, _, _, _, _, _, _, _, hv, hQ => hQ _ hv
  | t :: ts, Γ, ρ, kind, index, n, v, Q, h, hρ, hw, hs, hi, hn, hv, hQ => by
    simp only [elementsAreShaped, Bool.and_eq_true] at h
    obtain ⟨⟨ht, hslot⟩, hts⟩ := h
    rw [termsWeight] at hw
    rw [callSitesOfAll, List.append_subset] at hs
    rw [List.length_cons] at hi
    rw [elementsPre]
    split
    · intro k hk
      refine termPre_of_isShaped (t := t) ht hρ (by omega) hs.1 fun cs hcs => ?_
      obtain ⟨e, rfl, he⟩ := (hcs.of_serves hslot).slot (by cases kind <;> decide)
      obtain ⟨w, hw', hpart⟩ := hv.withPart (i := index) (by omega) hn he
      obtain rfl : scalarKind kind.scalar = k := by simpa using hcs.erase.trans hk
      refine ⟨e, w, rfl, by cases kind <;> decide, hpart, ?_⟩
      exact elementsPre_of_areShaped (l := ts) hts hρ (by omega) hs.2 (by omega) hn hw' hQ
    · exact elementsPre_of_areShaped (l := ts) hts hρ (by omega) hs.2 (by omega) hn hv hQ

theorem listPre_of_areShaped : ∀ {l : List Term} {Γ : Scoped} {ρ : Bound} {vs : List Nbt}
    {Q : List Nbt → Prop}, areShaped Γ l → ScopeFits ρ Γ → termsWeight l < 2 ^ 31 →
    callSitesOfAll l ⊆ sites → (∀ vs, Q vs) → listPre (calleesOf sites) l ρ vs Q
  | [], _, _, vs, _, _, _, _, _, hQ => hQ vs
  | t :: ts, _, _, _, _, h, hρ, hw, hs, hQ => by
    rw [areShaped, Bool.and_eq_true] at h
    rw [termsWeight] at hw
    rw [callSitesOfAll, List.append_subset] at hs
    intro k hk
    refine termPre_of_isShaped (t := t) h.1 hρ (by omega) hs.1 fun cs hcs => ?_
    obtain ⟨e, -, rfl, -⟩ := hcs.single hk
    exact ⟨e, rfl, listPre_of_areShaped (l := ts) h.2 hρ (by omega) hs.2 hQ⟩

theorem fieldsPre_of_areShaped : ∀ {l : List (String × Term)} {Γ : Scoped} {ρ : Bound}
    {m : List (String × Shape)} {vs : List (String × Nbt)}
    {Q : List (String × Nbt) → Prop}, fieldsAreShaped Γ l → ScopeFits ρ Γ →
    fieldsWeight l < 2 ^ 31 → callSitesOfFields l ⊆ sites → FieldsFit m vs →
    (∀ vs, FieldsFit (madeShapes m l) vs → Q vs) →
    fieldsPre (calleesOf sites) l ρ vs Q
  | [], _, _, _, _, _, _, _, _, _, hvs, hQ => hQ _ hvs
  | (key, t) :: rest, _, _, made, _, _, h, hρ, hw, hs, hvs, hQ => by
    rw [fieldsAreShaped, Bool.and_eq_true] at h
    rw [fieldsWeight] at hw
    rw [callSitesOfFields, List.append_subset] at hs
    intro k hk
    refine termPre_of_isShaped (t := t) h.1 hρ (by omega) hs.1 fun cs hcs => ?_
    obtain ⟨e, σ, rfl, hσ, -, he⟩ := hcs.single hk
    refine ⟨e, rfl, fieldsPre_of_areShaped (l := rest) (m := withField key σ made) h.2 hρ
      (by omega) hs.2 (hvs.withField he) fun vs hvs => hQ vs ?_⟩
    rw [madeShapes, hσ]
    exact hvs

end

end

/-- Whether a function is shaped: its binder, its body in the scope of the binder, and its result.
Neither the function nor a binder in it keeps slots. -/
def functionIsShaped (f : Flat.Function) : Bool :=
  !f.has .noDrop && !f.binder.has .noDrop && patternIsShaped f.binder &&
    isShaped (Scoped.bind [] f.binder) f.body && allServe (shapes f.body.ty) (shapes f.result)

theorem functionPre_of_isShaped {f : Flat.Function} {args : Cells} {Q : Cells → Prop}
    (h : functionIsShaped f) (hw : functionWeight f < 2 ^ 31)
    (hargs : CellsFit args (shapes f.binder.ty))
    (hQ : ∀ rs, CellsFit rs (shapes f.result) → Q rs) :
    functionPre (calleesOf (callSites f.body)) f args Q := by
  simp only [functionIsShaped, Bool.and_eq_true, Bool.not_eq_true'] at h
  obtain ⟨⟨⟨⟨hf, hb⟩, hbinder⟩, hbody⟩, hresult⟩ := h
  rw [functionWeight] at hw
  refine ⟨hf, hb, hargs.erase, binderPre_of_isShaped hbinder hargs fun copied kept hc hk => ?_⟩
  have hscope : ScopeFits (copied ++ kept) (Scoped.bind [] f.binder) := by
    rw [Scoped.bind, List.append_nil]
    exact hc.append hk
  exact termPre_of_isShaped hbody hscope (by omega) (fun _ h => h) fun rs hrs =>
    ⟨(hrs.of_serves hresult).erase, hQ rs (hrs.of_serves hresult)⟩

/-! ## Behaviour -/

/-- Cells on top of the stacks. Slots of kind `end` have no content. -/
def pushCells (s : State) (cs : Cells) : State :=
  cs.foldl (fun s c => if c.1 = .endTag then s else s.push c.1 c.2) s

theorem stack_pushCells (cs : Cells) (s : State) (k : StackKind) :
    (pushCells s cs).stack k = (held .free cs).values k ++ s.stack k := by
  induction cs generalizing s with
  | nil => simp [pushCells, Frame.values]
  | cons c cs ih =>
    have h : held .free (c :: cs) = held .free cs ++ held .free [c] :=
      Frame.held_append .free [c] cs
    rw [pushCells, List.foldl_cons, ← pushCells, ih, h, Frame.values_append, List.append_assoc]
    congr 1
    obtain ⟨j, v⟩ := c
    by_cases hj : j = .endTag
    · subst hj
      rw [if_pos rfl]
      have h := values_held_endTag .free v Frame.empty
      rw [Frame.append_empty] at h
      rw [h]
      simp [Frame.values]
    · rw [if_neg hj, State.push, State.stack_update]
      by_cases hk : j = k
      · subst hk
        simp [Frame.values_of_ne _ hj, Frame.on_held_singleton]
      · simp [Frame.values, Frame.on_held_singleton, hk]

theorem rest_pushCells (cs : Cells) (s : State) : (pushCells s cs).result = s.result ∧
    (pushCells s cs).scratch = s.scratch ∧ (pushCells s cs).commands = s.commands := by
  induction cs generalizing s with
  | nil => exact ⟨rfl, rfl, rfl⟩
  | cons c cs ih =>
    rw [pushCells, List.foldl_cons, ← pushCells]
    split
    · exact ih s
    · exact ih (s.push c.1 c.2)

/-- On every machine of a family, instructions replace an argument on top of the stacks by a
result and leave the rest of the stacks alone, in the same way whatever the prefix is that the
machines have below; if need be, they keep a positive result register positive. -/
def Behaves {ι : Type} (p : ι → Program) (base : ι → PerKind (List Nbt)) (is : List Instruction)
    (param result : Ty) (keeps : Bool) : Prop :=
  ∀ (s : State) (args : Cells), CellsFit args (shapes param) → ∃ n rs t,
    CellsFit rs (shapes result) ∧ t.stack = s.stack ∧ (keeps → 1 ≤ s.result → 1 ≤ t.result) ∧
      ∀ m i, run (p i) (n + m) is ((pushCells s args).above (base i)) =
        ⟨(pushCells t rs).above (base i), m, none⟩

section

variable {ι : Type} {p : ι → Program} {base : ι → PerKind (List Nbt)}

theorem PerKind.exists_get {α : Type} (f : StackKind → α) :
    ∃ q : PerKind α, ∀ k, q.get k = f k := by
  refine ⟨⟨.ofFn fun i => f (StackKind.all.get (i.cast rfl))⟩, fun k => ?_⟩
  rw [PerKind.get, Fin.getElem_fin, Vector.getElem_ofFn]
  cases k <;> rfl

/-- Callees that behave on a prefix also do so with more slots on it. -/
theorem realized_of_behaves {options : Options} {sites : List CallSite} (s : State)
    (hsites : ∀ c ∈ sites, Behaves p base [.call (.ofName options.nspace c.name)] c.param c.result
      c.keeps) :
    ((calleesOf sites).calls options).Realized p fun i => (s.above (base i)).byKind := by
  rintro l s₁ Q ⟨name, keeps, as, F, R, rfl, hs₁, ⟨c, hc, rfl, hkeeps, has, hR⟩, hQ⟩
  obtain ⟨x, hx⟩ := PerKind.exists_get fun k => F.values k ++ s.stack k
  obtain ⟨n, rs, t, hrs, ht, hpos, hrun⟩ := hsites c hc { s₁ with byKind := x } as has
  obtain ⟨y, hy⟩ := PerKind.exists_get (held .free rs ++ F).values
  refine ⟨n, { t with byKind := y }, ?_, fun m i => ?_⟩
  · exact hQ rs _ (hR rs hrs) (funext hy) fun hk => hpos (hkeeps hk)
  · have hbase : ∀ k, (s.above (base i)).byKind.get k = s.stack k ++ (base i).get k :=
      fun k => State.stack_above s (base i) k
    have hbefore : s₁.above (s.above (base i)).byKind =
        (pushCells { s₁ with byKind := x } as).above (base i) := by
      obtain ⟨hr, hsc, hco⟩ := rest_pushCells as { s₁ with byKind := x }
      refine State.ext_stack (fun k => ?_) hr.symm hsc.symm hco.symm
      rw [State.stack_above, State.stack_above, stack_pushCells, hbase, hs₁, Frame.values_append]
      simp only [State.stack, hx, List.append_assoc]
    have hafter : ({ t with byKind := y } : State).above (s.above (base i)).byKind =
        (pushCells t rs).above (base i) := by
      obtain ⟨hr, hsc, hco⟩ := rest_pushCells rs t
      refine State.ext_stack (fun k => ?_) hr.symm hsc.symm hco.symm
      rw [State.stack_above, State.stack_above, stack_pushCells, hbase, ht]
      simp only [State.stack, hx, hy, Frame.values_append, List.append_assoc]
    rw [hbefore, hafter]
    exact hrun m i

end

/-- The scalar that a native function gives. -/
def nativeScalar : Machine.Native → Scalar
  | .add | .sub | .mul => .int
  | .eq | .lt => .bool

theorem popInt_push (s : State) (a : Int32) :
    Machine.popInt (s.push .int (.int a)) = (.ok a, s) := by
  have hpush : ∀ k, (s.push .int (.int a)).byKind.get k =
      if .int = k then .int a :: s.stack .int else s.stack k :=
    fun k => State.stack_update s .int k (.int a :: ·)
  have h : (s.push .int (.int a)).stack .int = .int a :: s.stack .int := hpush .int
  rw [Machine.popInt, h]
  refine congrArg (Prod.mk _) (State.ext_stack (fun k => ?_) rfl rfl rfl)
  rw [State.stack, PerKind.get_set, hpush]
  by_cases hk : StackKind.int = k
  · subst hk
    rw [if_pos rfl]
  · rw [if_neg hk, if_neg hk]

theorem native_run (n : Machine.Native) (s : State) (a b : Int32) :
    n.run ((s.push .int (.int a)).push .int (.int b)) =
      (.ok (), s.push (n.result a b).1 (n.result a b).2) := by
  simp only [Machine.Native.run, popInt_push]

/-- The integer functions of the prelude behave. -/
theorem behaves_native {ι : Type} {p : ι → Program} {base : ι → PerKind (List Nbt)}
    {l : Location} {n : Machine.Native} (hl : ∀ i, Keyed.find? l (p i).natives = some n.run)
    (keeps : Bool) :
    Behaves p base [.call l] (.tuple [.int, .int]) (.scalar (nativeScalar n)) keeps := by
  intro s args hargs
  obtain ⟨⟨_, va⟩, _, ⟨rfl, ha⟩, hrest, rfl⟩ := List.forall₂_cons_right_iff.1 hargs
  obtain ⟨⟨_, vb⟩, _, ⟨rfl, hb⟩, hnil, rfl⟩ := List.forall₂_cons_right_iff.1 hrest
  obtain rfl := List.forall₂_nil_right_iff.1 hnil
  obtain ⟨a, rfl⟩ : ∃ a, va = .int a := by
    cases va <;> simp_all [Shape.Fits, kindOf, scalarKind]
  obtain ⟨b, rfl⟩ : ∃ b, vb = .int b := by
    cases vb <;> simp_all [Shape.Fits, kindOf, scalarKind]
  refine ⟨1, [n.result a b], s, ?_, rfl, fun _ h => h, fun m i => ?_⟩
  · rw [shapes]
    refine .cons ?_ .nil
    cases n <;> exact ⟨rfl, .inr rfl⟩
  · have hargs : (pushCells s [(.int, .int a), (.int, .int b)]).above (base i) =
        ((s.above (base i)).push .int (.int a)).push .int (.int b) := by
      rw [State.push_above, State.push_above]
      rfl
    have hresult : (pushCells s [n.result a b]).above (base i) =
        (s.above (base i)).push (n.result a b).1 (n.result a b).2 := by
      rw [State.push_above]
      cases n <;> rfl
    simp only [Shape.kind, scalarKind]
    rw [hargs, hresult, Nat.add_comm, run, hl i]
    simp only [native_run]
    rw [run]


/-- **Stack discipline.** Let a function be shaped and have code, with less than 2³¹ slots and
array elements in it. If all its callees behave as their call sites say, its instructions behave:
they end without a failure, they neither read nor change anything below the argument, and what they
leave there is a result of the type of the function. -/
theorem behaves_of_function {ι : Type} (p : ι → Program) (base : ι → PerKind (List Nbt))
    (options : Options) (f : Flat.Function) (is : List Instruction)
    (hcode : function options f = .ok is) (hshaped : functionIsShaped f)
    (hweight : functionWeight f < 2 ^ 31)
    (hcalls : ∀ c ∈ callSites f.body,
      Behaves p base [.call (.ofName options.nspace c.name)] c.param c.result c.keeps) :
    Behaves p base is f.binder.ty f.result (f.restore.any fun n => decide (1 ≤ n)) := by
  intro s args hargs
  -- on its own slots the code is described by its weakest precondition
  have hstack : (pushCells { s with byKind := .const [] } args).stack = (held .free args).values :=
    funext fun k => by rw [stack_pushCells]; simp [State.stack]
  have hleads := leads_function options hcode hweight hstack
    (functionPre_of_isShaped hshaped hweight hargs fun rs hrs => hrs)
  obtain ⟨n, s', ⟨rs, hrs, hs', hrestore⟩, hrun⟩ :=
    ends_of_leads (realized_of_behaves s hcalls) hleads
  refine ⟨n, rs, { s' with byKind := s.byKind }, hrs, rfl, fun hk _ => ?_, fun m i => ?_⟩
  · cases hr : f.restore with
    | none => simp [hr] at hk
    | some n =>
      have : s'.result = n := hrestore n hr
      simpa [hr, this] using hk
  -- what the stacks held before and the prefix together are the prefix of that description
  · have hbase : ∀ k, (s.above (base i)).byKind.get k = s.stack k ++ (base i).get k :=
      fun k => State.stack_above s (base i) k
    have hbefore : (pushCells s args).above (base i) =
        (pushCells { s with byKind := .const [] } args).above (s.above (base i)).byKind := by
      obtain ⟨hr, hsc, hco⟩ := rest_pushCells args s
      obtain ⟨hr', hsc', hco'⟩ := rest_pushCells args { s with byKind := .const [] }
      refine State.ext_stack (fun k => ?_) (hr.trans hr'.symm) (hsc.trans hsc'.symm)
        (hco.trans hco'.symm)
      rw [State.stack_above, State.stack_above, hstack, stack_pushCells, hbase, List.append_assoc]
    have hafter : (pushCells { s' with byKind := s.byKind } rs).above (base i) =
        s'.above (s.above (base i)).byKind := by
      obtain ⟨hr, hsc, hco⟩ := rest_pushCells rs { s' with byKind := s.byKind }
      refine State.ext_stack (fun k => ?_) hr hsc hco
      rw [State.stack_above, State.stack_above, stack_pushCells, hbase, hs', List.append_assoc]
      rfl
    rw [hbefore, hafter]
    exact hrun m i

/-- A function of the flat language that takes its argument apart. -/
def sumTimes : Flat.Function where
  marks := []
  name := ⟨["main"], "sum_times"⟩
  binder := .ofVar ⟨"x", 0⟩ (.tuple [.int, .int])
  result := .int
  body := .letIn .int (.ofTuple [.ofVar ⟨"a", 1⟩ .int, .ofVar ⟨"b", 2⟩ .int])
    (.var (.tuple [.int, .int]) ⟨"x", 0⟩)
    (.call .int ⟨["prelude"], "int_mul"⟩ (.ofTuple
      [.call .int ⟨["prelude"], "int_add"⟩ (.ofTuple [.var .int ⟨"a", 1⟩, .var .int ⟨"b", 2⟩]),
        .var .int ⟨"b", 2⟩]))
  restore := none


theorem behaves_sumTimes : ∃ is, function ⟨"minecraft", false⟩ sumTimes = .ok is ∧
    functionIsShaped sumTimes ∧ functionWeight sumTimes < 2 ^ 31 ∧
    Behaves (fun _ : PerKind (List Nbt) => Program.empty.withPrelude "minecraft") id is
      (.tuple [.int, .int]) .int false := by
  have hshaped : functionIsShaped sumTimes := by decide +kernel
  have hweight : functionWeight sumTimes < 2 ^ 31 := by decide +kernel
  obtain ⟨is, hcode⟩ : ∃ is, function ⟨"minecraft", false⟩ sumTimes = .ok is := ⟨_, rfl⟩
  refine ⟨is, hcode, hshaped, hweight, behaves_of_function _ _ _ _ _ hcode hshaped hweight ?_⟩
  intro c hc
  simp only [sumTimes, callSites, Term.ofTuple, callSitesOfAll, List.mem_append, List.mem_cons,
    List.not_mem_nil, or_false, false_or] at hc
  obtain rfl | rfl := hc
  · exact behaves_native (n := .mul) (fun _ => rfl) false
  · exact behaves_native (n := .add) (fun _ => rfl) false


/-- A function that takes a field out of a record that lacks it. -/
def missingField : Flat.Function where
  marks := []
  name := ⟨["main"], "f"⟩
  binder := .ofVar ⟨"y", 0⟩ .int
  result := .int
  body := .letIn .int (.compound ⟨[], .compound [("a", .int)]⟩ [("a", .ofVar ⟨"x", 1⟩ .int)])
    (.compound (.compound [("b", .int)]) [("b", .literal .int (.int 1))])
    (.literal .int (.int 7))
  restore := none

/-- Kinds alone do not make code safe: a function whose kinds agree stops at a field that a record
lacks. -/
theorem noData_of_missingField :
    kindsAgree [(0, [.int])] missingField.body = true ∧
    missingField.body.ty.erase = missingField.result.erase ∧
    ∃ is, function ⟨"minecraft", false⟩ missingField = .ok is ∧
      (run .empty 100 is (pushCells .empty [(.int, .int 5)])).error =
        some (.noData ((Target.DataPath.slot .compound (-1)).field "a")) :=
  ⟨by decide +kernel, rfl, _, rfl, by decide +kernel⟩

end Stagecraft.Emit
