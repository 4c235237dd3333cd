import Stagecraft.Emit.Code
import Stagecraft.Proofs.Frames

/-!
# What terms do with slots

Code works on cells: the slots of a value with what they hold. `termPre` is the weakest
precondition of a term on this level, for an environment of cells and for what is known of callees.
No index and no order of slots occurs in it; that the emitted instructions keep to it is shown
elsewhere, and what follows from types or from an evaluation can be shown here.

The condition says that everything has as many slots, of the kinds, that the types of the nodes
erase to: indices are computed from the types.
-/

namespace Stagecraft.Emit

open Target (StackKind Nbt ScoreRange)
open Flat (Ty Pattern Term)

/-! ## Binders and tests -/

/-- Variables by level with their cells, the topmost first. -/
abbrev Bound := List (Nat × Cells)

mutual

/-- From the cells of a value, the variables of the binder satisfy the condition: first those whose
cells are copied to the top, then those whose cells stay where they are. -/
def binderPre : Pattern → Cells → (Bound → Bound → Prop) → Prop
  | .var info v, cs, Q => cs.map (·.1) = info.ty.erase ∧ Q [] [(v.level, cs)]
  | .int .., cs, Q | .range .., cs, Q => cs.map (·.1) = [.int] ∧ Q [] []
  | .wildcard info, cs, Q => cs.map (·.1) = info.ty.erase ∧ Q [] []
  | .tuple _ ps, cs, Q => bindersPre ps cs Q
  | .compound _ fields, cs, Q => ∃ entries, cs = [(.compound, .compound entries)] ∧
    fieldBindersPre fields entries fun copied => Q copied []
  -- rejected by code generation
  | .list .., _, _ => True

/-- From the cells of several values, the variables of their binders satisfy the condition. The
last value is bound first. -/
def bindersPre : List Pattern → Cells → (Bound → Bound → Prop) → Prop
  | [], cs, Q => cs = [] ∧ Q [] []
  | p :: ps, cs, Q => bindersPre ps (cs.drop p.ty.erase.length) fun copied kept =>
    binderPre p (cs.take p.ty.erase.length) fun copied' kept' =>
      Q (copied' ++ copied) (kept ++ kept')

/-- From the fields of a record, the variables of their binders satisfy the condition. -/
def fieldBindersPre : List (String × Pattern) → List (String × Nbt) → (Bound → Prop) → Prop
  | [], _, Q => Q []
  | (key, p) :: rest, entries, Q => ∀ k, p.ty.erase = [k] → ∃ v,
    Keyed.find? key entries = some v ∧ binderPre p [(k, v)] fun copied kept =>
      fieldBindersPre rest entries fun later => Q (later ++ (copied ++ kept))

end

/-- From the cell of a number, the answer whether it lies in a range satisfies the condition. -/
def rangePre (range : ScoreRange) (cs : Cells) (Q : Bool → Prop) : Prop :=
  ∃ v x, cs = [(.int, v)] ∧ Machine.State.scoreOf? v = some x ∧ Q (range.contains x)

mutual

/-- From the cells of a value, the answer of the test satisfies the condition. -/
def testerPre : Pattern → Cells → (Bool → Prop) → Prop
  | .int _ n, cs, Q => rangePre (.exactly n) cs Q
  | .range _ min max, cs, Q => rangePre (.between min max) cs Q
  | .tuple _ ps, cs, Q => testersPre ps cs Q
  | .var info _, cs, Q | .wildcard info, cs, Q => cs.map (·.1) = info.ty.erase ∧ Q true
  -- rejected by code generation
  | .list .., _, _ | .compound .., _, _ => True

/-- From the cells of several values, the common answer of their tests satisfies the condition. -/
def testersPre : List Pattern → Cells → (Bool → Prop) → Prop
  | [], cs, Q => cs = [] ∧ Q true
  | p :: ps, cs, Q => testersPre ps (cs.drop p.ty.erase.length) fun later =>
    testerPre p (cs.take p.ty.erase.length) fun first => Q (later && first)

end

/-! ## Terms -/

/-- What is known of callees: from which arguments a call ends in a condition on the result, if
need be so that it keeps a positive result register positive. -/
structure Callees where
  pre : DefName → Bool → Cells → (Cells → Prop) → Prop
  mono : ∀ {name keeps as P Q}, (∀ rs, P rs → Q rs) → pre name keeps as P → pre name keeps as Q

mutual

/-- Whether code leaves the registers alone. -/
def isQuiet : Term → Bool
  | .literal .. | .closure .. | .var .. | .command .. | .ref .. => true
  | .array _ _ es | .list _ es | .tuple _ es => areQuiet es
  | .compound _ fields => fieldsAreQuiet fields
  | .letIn _ _ init body => isQuiet init && isQuiet body
  | .branch .. | .call .. | .test .. => false

/-- Whether the code of several terms leaves the registers alone. -/
def areQuiet : List Term → Bool
  | [] => true
  | t :: ts => isQuiet t && areQuiet ts

/-- Whether the code of the fields of a record leaves the registers alone. -/
def fieldsAreQuiet : List (String × Term) → Bool
  | [] => true
  | (_, t) :: rest => isQuiet t && fieldsAreQuiet rest

end

/-- From the environment, the record with captured variables added satisfies the condition. -/
def capturesPre (ρ : Bound) : List Flat.Capture → List (String × Nbt) →
    (List (String × Nbt) → Prop) → Prop
  | [], fields, Q => Q fields
  | c :: rest, fields, Q =>
    if c.ty.erase = [.endTag] then capturesPre ρ rest fields Q
    else ∀ k, c.ty.erase = [k] → ∃ v, Keyed.find? c.v.level ρ = some [(k, v)] ∧
      capturesPre ρ rest (Keyed.insert c.v.name v fields) Q

section

variable (callees : Callees)

/-- The result of a call has the kinds that its type erases to. -/
def callPre (name : DefName) (keeps : Bool) (as : Cells) (ty : Ty) (Q : Cells → Prop) : Prop :=
  callees.pre name keeps as fun rs => rs.map (·.1) = ty.erase ∧ Q rs

/-- A conditional calls one of two definitions by the score `x`. If the code of the argument
touches the registers, either one may be called. The second guard reads the register again after
the first call. -/
def jumpPre (quiet : Bool) (x : Int32) (thenName elseName : DefName) (as : Cells) (ty : Ty)
    (Q : Cells → Prop) : Prop :=
  ((1 ≤ x ∨ quiet = false) → callPre callees thenName true as ty Q) ∧
    ((x < 1 ∨ quiet = false) → callPre callees elseName false as ty Q)

mutual

/-- From the environment, the value of the term satisfies the condition. -/
def termPre : Term → Bound → (Cells → Prop) → Prop
  | .literal ty l, _, Q => ∀ k, ty.erase = [k] → Q [(k, .ofLiteral l)]
  | .array ty kind es, ρ, Q => ∀ k, ty.erase = [k] →
    elementsPre k kind 0 es ρ (arrayShell kind es) fun v => Q [(k, v)]
  | .list _ es, ρ, Q => listPre es ρ [] fun vs => Q [(.list, .list vs)]
  | .compound _ fields, ρ, Q => fieldsPre fields ρ [] fun vs => Q [(.compound, .compound vs)]
  -- code generation rejects boxes
  | .ref .., _, _ => True
  | .tuple _ es, ρ, Q => termsPre es ρ Q
  | .closure _ tag captures, ρ, Q =>
    capturesPre ρ captures [("_", .int (Int32.ofNat tag))] fun fields =>
      Q [(.compound, .compound fields)]
  | .branch ty c a thenName elseName, ρ, Q =>
    termPre c ρ fun cs => ∃ v x, cs = [(.byte, v)] ∧ Machine.State.scoreOf? v = some x ∧
      termPre a ρ fun as => as.map (·.1) = a.ty.erase ∧
        jumpPre callees (isQuiet a) x thenName elseName as ty Q
  | .letIn _ binder init body, ρ, Q =>
    binder.has .noDrop = false ∧ termPre init ρ fun cs => binderPre binder cs fun copied kept =>
      termPre body (copied ++ kept ++ ρ) fun rs => rs.map (·.1) = body.ty.erase ∧ Q rs
  | .var ty v, ρ, Q => ∃ vs, Keyed.find? v.level ρ = some vs ∧ vs.map (·.1) = ty.erase ∧ Q vs
  | .call ty name a, ρ, Q =>
    termPre a ρ fun as => as.map (·.1) = a.ty.erase ∧ callPre callees name false as ty Q
  | .test _ e p, ρ, Q =>
    termPre e ρ fun cs => testerPre p cs fun b => Q [(.byte, .byte (if b then 1 else 0))]
  | .command ty _, _, Q =>
    (∀ k ∈ ty.erase, k = .endTag) ∧ Q (ty.erase.map fun k => (k, default))

/-- From the environment, the values of the terms one after another satisfy the condition. -/
def termsPre : List Term → Bound → (Cells → Prop) → Prop
  | [], _, Q => Q []
  | t :: ts, ρ, Q => termPre t ρ fun cs => termsPre ts ρ fun ds => Q (cs ++ ds)

/-- From the environment, the array with its computed elements from an index on satisfies the
condition. -/
def elementsPre (shell : StackKind) (kind : ArrayKind) (index : Nat) :
    List Term → Bound → Nbt → (Nbt → Prop) → Prop
  | [], _, v, Q => Q v
  | t :: ts, ρ, v, Q =>
    if (constant? kind t).isNone then
      ∀ k, t.ty.erase = [k] → termPre t ρ fun cs => ∃ e w, cs = [(k, e)] ∧ k ≠ shell ∧
        (∀ m, Machine.withPart m (.index (Int32.ofNat index)) e v = .ok w) ∧
          elementsPre shell kind (index + 1) ts ρ w Q
    else elementsPre shell kind (index + 1) ts ρ v Q

/-- From the environment, the list with elements appended satisfies the condition. -/
def listPre : List Term → Bound → List Nbt → (List Nbt → Prop) → Prop
  | [], _, vs, Q => Q vs
  | t :: ts, ρ, vs, Q =>
    ∀ k, t.ty.erase = [k] → termPre t ρ fun cs => ∃ e, cs = [(k, e)] ∧ listPre ts ρ (vs ++ [e]) Q

/-- From the environment, the record with fields added satisfies the condition. -/
def fieldsPre : List (String × Term) → Bound → List (String × Nbt) →
    (List (String × Nbt) → Prop) → Prop
  | [], _, vs, Q => Q vs
  | (key, t) :: rest, ρ, vs, Q =>
    ∀ k, t.ty.erase = [k] → termPre t ρ fun cs => ∃ e, cs = [(k, e)] ∧
      fieldsPre rest ρ (Keyed.insert key e vs) Q

end

end

/-! ## The size of code -/

mutual

/-- The slots that a binder copies. -/
def patternWeight : Pattern → Nat
  | .int .. | .range .. | .wildcard _ | .var .. => 0
  | .list _ ps | .tuple _ ps => patternsWeight ps
  | .compound _ fields => fieldPatternsWeight fields

/-- The slots that several binders copy. -/
def patternsWeight : List Pattern → Nat
  | [] => 0
  | p :: ps => patternWeight p + patternsWeight ps

/-- The slots that the binders of record fields copy. -/
def fieldPatternsWeight : List (String × Pattern) → Nat
  | [] => 0
  | (_, p) :: rest => 1 + patternWeight p + fieldPatternsWeight rest

end

mutual

/-- A bound on the slots that code has on the stacks at any time, and on its array indices. -/
def termWeight : Term → Nat
  | .literal .. | .closure .. => 1
  | .array _ _ es => 1 + es.length + termsWeight es
  | .list _ es => 1 + termsWeight es
  | .compound _ fields => 1 + fieldsWeight fields
  | .ref _ e => termWeight e
  | .tuple _ es => termsWeight es
  | .branch ty c a _ _ => 1 + termWeight c + termWeight a + ty.erase.length
  | .letIn _ binder init body => termWeight init + patternWeight binder + termWeight body
  | .var ty _ => ty.erase.length
  | .call ty _ a => termWeight a + ty.erase.length
  | .test _ e _ => 1 + termWeight e
  | .command ty _ => ty.erase.length

/-- The weight of several terms. -/
def termsWeight : List Term → Nat
  | [] => 0
  | t :: ts => termWeight t + termsWeight ts

/-- The weight of the fields of a record. -/
def fieldsWeight : List (String × Term) → Nat
  | [] => 0
  | (_, t) :: rest => termWeight t + fieldsWeight rest

end

/-- A bound on the slots that the code of a function has on the stacks at any time. -/
def functionWeight (f : Flat.Function) : Nat :=
  f.binder.ty.erase.length + patternWeight f.binder + termWeight f.body

/-- From the cells of the argument, the result of the function satisfies the condition. -/
def functionPre (callees : Callees) (f : Flat.Function) (args : Cells) (Q : Cells → Prop) : Prop :=
  f.has .noDrop = false ∧ f.binder.has .noDrop = false ∧
    args.map (·.1) = f.binder.ty.erase ∧ binderPre f.binder args fun copied kept =>
      termPre callees f.body (copied ++ kept) fun rs => rs.map (·.1) = f.result.erase ∧ Q rs

/-! ## Consequence -/

/-- The slots of cells of a value and so many more. -/
def Cells.AtLeast (cs : Cells) (weight : Nat) (b : Bound) : Prop :=
  ∀ k, ((Frame.ofBindings b).on k).length ≤ (cs.map (·.1)).count k + weight

mutual

/-- The condition can be weakened, and a binder leaves no more slots than the value had and it
copies. -/
theorem binderPre_mono : ∀ {p : Pattern} {cs : Cells} {P Q : Bound → Bound → Prop},
    (∀ copied kept, cs.AtLeast (patternWeight p) (copied ++ kept) → P copied kept →
      Q copied kept) → binderPre p cs P → binderPre p cs Q
  | .var info v, cs, _, _, hPQ, ⟨hks, h⟩ => ⟨hks, hPQ _ _ (fun k => by
      simp [Frame.ofBindings_cons, Frame.length_held]) h⟩
  | .int .., _, _, _, hPQ, ⟨hks, h⟩ | .range .., _, _, _, hPQ, ⟨hks, h⟩
  | .wildcard _, _, _, _, hPQ, ⟨hks, h⟩ => ⟨hks, hPQ _ _ (fun _ => Nat.zero_le _) h⟩
  | .tuple _ ps, _, _, _, hPQ, h => bindersPre_mono (l := ps) hPQ h
  | .compound _ fields, cs, _, _, hPQ, ⟨entries, hcs, h⟩ =>
    ⟨entries, hcs, fieldBindersPre_mono (l := fields) (fun copied hc h =>
      hPQ _ _ (fun k => by
        rw [List.append_nil]
        exact Nat.le_trans (hc k) (Nat.le_add_left _ _)) h) h⟩
  | .list .., _, _, _, _, _ => trivial

theorem bindersPre_mono : ∀ {l : List Pattern} {cs : Cells} {P Q : Bound → Bound → Prop},
    (∀ copied kept, cs.AtLeast (patternsWeight l) (copied ++ kept) → P copied kept →
      Q copied kept) → bindersPre l cs P → bindersPre l cs Q
  | [], _, _, _, hPQ, ⟨hcs, h⟩ => ⟨hcs, hPQ _ _ (fun _ => Nat.zero_le _) h⟩
  | p :: ps, cs, _, _, hPQ, h =>
    bindersPre_mono (l := ps) (fun copied kept hlater h =>
      binderPre_mono (p := p) (fun copied' kept' hfirst h => hPQ _ _ (fun k => by
        have h₁ := hlater k
        have h₂ := hfirst k
        have h₃ := congrArg (fun cs : Cells => (cs.map (·.1)).count k)
          (List.take_append_drop p.ty.erase.length cs)
        simp only [List.map_append, List.count_append, Frame.ofBindings_append, Frame.on_append,
          List.length_append, patternsWeight] at h₁ h₂ h₃ ⊢
        omega) h) h) h

theorem fieldBindersPre_mono : ∀ {l : List (String × Pattern)}
    {entries : List (String × Nbt)} {P Q : Bound → Prop},
    (∀ copied, (∀ k, ((Frame.ofBindings copied).on k).length ≤ fieldPatternsWeight l) →
      P copied → Q copied) → fieldBindersPre l entries P → fieldBindersPre l entries Q
  | [], _, _, _, hPQ, h => hPQ _ (fun _ => Nat.zero_le _) h
  | (key, p) :: rest, entries, _, _, hPQ, h => fun k hk => by
    obtain ⟨v, hv, h⟩ := h k hk
    refine ⟨v, hv, binderPre_mono (p := p) (fun copied kept hfirst h =>
      fieldBindersPre_mono (l := rest) (fun later hlater h => hPQ _ (fun j => ?_) h) h) h⟩
    have h₁ := hlater j
    have h₂ := hfirst j
    have h₃ : ([(k, v)].map (·.1)).count j ≤ 1 := List.count_le_length
    simp only [Frame.ofBindings_append, Frame.on_append, List.length_append,
      fieldPatternsWeight] at h₁ h₂ ⊢
    omega

end

mutual

theorem testerPre_mono : ∀ {p : Pattern} {cs : Cells} {P Q : Bool → Prop},
    (∀ b, P b → Q b) → testerPre p cs P → testerPre p cs Q
  | .int .., _, _, _, hPQ, ⟨v, x, hcs, hx, h⟩ | .range .., _, _, _, hPQ, ⟨v, x, hcs, hx, h⟩ =>
    ⟨v, x, hcs, hx, hPQ _ h⟩
  | .tuple _ ps, _, _, _, hPQ, h => testersPre_mono (l := ps) hPQ h
  | .var .., _, _, _, hPQ, ⟨hks, h⟩ | .wildcard _, _, _, _, hPQ, ⟨hks, h⟩ => ⟨hks, hPQ _ h⟩
  | .list .., _, _, _, _, _ | .compound .., _, _, _, _, _ => trivial

theorem testersPre_mono : ∀ {l : List Pattern} {cs : Cells} {P Q : Bool → Prop},
    (∀ b, P b → Q b) → testersPre l cs P → testersPre l cs Q
  | [], _, _, _, hPQ, ⟨hcs, h⟩ => ⟨hcs, hPQ _ h⟩
  | p :: ps, _, _, _, hPQ, h => testersPre_mono (l := ps) (fun _ h =>
      testerPre_mono (p := p) (fun _ h => hPQ _ h) h) h

end

theorem capturesPre_mono {ρ : Bound} {P Q : List (String × Nbt) → Prop} (hPQ : ∀ vs, P vs → Q vs) :
    ∀ {captures : List Flat.Capture} {fields : List (String × Nbt)},
      capturesPre ρ captures fields P → capturesPre ρ captures fields Q
  | [], _, h => hPQ _ h
  | c :: rest, _, h => by
    rw [capturesPre] at h ⊢
    split at h
    · next hc =>
      rw [if_pos hc]
      exact capturesPre_mono hPQ h
    · next hc =>
      rw [if_neg hc]
      intro k hk
      obtain ⟨v, hv, h⟩ := h k hk
      exact ⟨v, hv, capturesPre_mono hPQ h⟩

section

variable {callees : Callees}

theorem callPre_mono {name : DefName} {keeps : Bool} {as : Cells} {ty : Ty} {P Q : Cells → Prop}
    (hPQ : ∀ rs, rs.length = ty.erase.length → P rs → Q rs)
    (h : callPre callees name keeps as ty P) : callPre callees name keeps as ty Q := by
  refine callees.mono (fun rs hrs => ⟨hrs.1, hPQ rs ?_ hrs.2⟩) h
  rw [← hrs.1, List.length_map]

theorem jumpPre_mono {quiet : Bool} {x : Int32} {thenName elseName : DefName} {as : Cells}
    {ty : Ty} {P Q : Cells → Prop} (hPQ : ∀ rs, rs.length = ty.erase.length → P rs → Q rs)
    (h : jumpPre callees quiet x thenName elseName as ty P) :
    jumpPre callees quiet x thenName elseName as ty Q :=
  ⟨fun hx => callPre_mono hPQ (h.1 hx), fun hx => callPre_mono hPQ (h.2 hx)⟩

mutual

/-- The condition can be weakened, and the value has no more slots than the term weighs. -/
theorem termPre_mono : ∀ {t : Term} {ρ : Bound} {P Q : Cells → Prop},
    (∀ cs, cs.length ≤ termWeight t → P cs → Q cs) → termPre callees t ρ P →
    termPre callees t ρ Q
  | .literal .., _, _, _, hPQ, h => fun k hk => hPQ _ (Nat.le_refl 1) (h k hk)
  | .array _ _ es, _, _, _, hPQ, h => fun k hk => elementsPre_mono
    (fun _ => hPQ _ (by simp only [termWeight, List.length_singleton]; omega)) (h k hk)
  | .list _ es, _, _, _, hPQ, h =>
    listPre_mono (fun _ => hPQ _ (by simp only [termWeight, List.length_singleton]; omega)) h
  | .compound _ fields, _, _, _, hPQ, h =>
    fieldsPre_mono (fun _ => hPQ _ (by simp only [termWeight, List.length_singleton]; omega)) h
  | .ref .., _, _, _, _, _ => trivial
  | .tuple _ es, _, _, _, hPQ, h => termsPre_mono hPQ h
  | .closure .., _, _, _, hPQ, h => capturesPre_mono (fun _ => hPQ _ (by simp [termWeight])) h
  | .branch ty c a _ _, _, _, _, hPQ, h =>
    termPre_mono (t := c) (fun _ _ ⟨v, x, hcs, hx, h⟩ => ⟨v, x, hcs, hx,
      termPre_mono (t := a) (fun _ _ h => ⟨h.1, jumpPre_mono (fun rs hrs =>
        hPQ rs (by simp only [termWeight]; omega)) h.2⟩) h⟩) h
  | .letIn _ binder init body, _, _, _, hPQ, ⟨hd, h⟩ =>
    ⟨hd, termPre_mono (t := init) (fun _ _ h => binderPre_mono (p := binder) (fun _ _ _ h =>
      termPre_mono (t := body) (fun rs hrs h =>
        ⟨h.1, hPQ rs (by simp only [termWeight]; omega) h.2⟩) h) h) h⟩
  | .var ty _, _, _, _, hPQ, ⟨vs, hv, hk, h⟩ =>
    ⟨vs, hv, hk, hPQ vs (by simp [termWeight, ← hk]) h⟩
  | .call ty _ a, _, _, _, hPQ, h =>
    termPre_mono (t := a) (fun _ _ h => ⟨h.1, callPre_mono (fun rs hrs =>
      hPQ rs (by simp only [termWeight]; omega)) h.2⟩) h
  | .test _ e p, _, _, _, hPQ, h =>
    termPre_mono (t := e) (fun _ _ h => testerPre_mono (p := p) (fun _ =>
      hPQ _ (by simp only [termWeight, List.length_singleton]; omega)) h) h
  | .command .., _, _, _, hPQ, ⟨hk, h⟩ => ⟨hk, hPQ _ (by simp [termWeight]) h⟩

theorem termsPre_mono : ∀ {l : List Term} {ρ : Bound} {P Q : Cells → Prop},
    (∀ cs, cs.length ≤ termsWeight l → P cs → Q cs) → termsPre callees l ρ P →
    termsPre callees l ρ Q
  | [], _, _, _, hPQ, h => hPQ [] (Nat.zero_le _) h
  | t :: ts, _, _, _, hPQ, h =>
    termPre_mono (t := t) (fun cs hcs h => termsPre_mono (l := ts) (fun ds hds h =>
      hPQ _ (by rw [termsWeight, List.length_append]; omega) h) h) h

theorem elementsPre_mono : ∀ {l : List Term} {shell : StackKind} {kind : ArrayKind} {index : Nat}
    {ρ : Bound} {v : Nbt} {P Q : Nbt → Prop}, (∀ v, P v → Q v) →
    elementsPre callees shell kind index l ρ v P → elementsPre callees shell kind index l ρ v Q
  | [], _, _, _, _, _, _, _, hPQ, h => hPQ _ h
  | t :: ts, _, kind, _, _, _, _, _, hPQ, h => by
    rw [elementsPre] at h ⊢
    split at h
    · next hc =>
      rw [if_pos hc]
      exact fun k hk => termPre_mono (t := t) (fun _ _ ⟨e, w, hcs, hne, hw, h⟩ =>
        ⟨e, w, hcs, hne, hw, elementsPre_mono (l := ts) hPQ h⟩) (h k hk)
    · next hc =>
      rw [if_neg hc]
      exact elementsPre_mono (l := ts) hPQ h

theorem listPre_mono : ∀ {l : List Term} {ρ : Bound} {vs : List Nbt} {P Q : List Nbt → Prop},
    (∀ vs, P vs → Q vs) → listPre callees l ρ vs P → listPre callees l ρ vs Q
  | [], _, _, _, _, hPQ, h => hPQ _ h
  | t :: ts, _, _, _, _, hPQ, h => fun k hk =>
    termPre_mono (t := t) (fun _ _ ⟨e, hcs, h⟩ =>
      ⟨e, hcs, listPre_mono (l := ts) hPQ h⟩) (h k hk)

theorem fieldsPre_mono : ∀ {l : List (String × Term)} {ρ : Bound}
    {vs : List (String × Nbt)} {P Q : List (String × Nbt) → Prop},
    (∀ vs, P vs → Q vs) → fieldsPre callees l ρ vs P → fieldsPre callees l ρ vs Q
  | [], _, _, _, _, hPQ, h => hPQ _ h
  | (_, t) :: rest, _, _, _, _, hPQ, h => fun k hk =>
    termPre_mono (t := t) (fun _ _ ⟨e, hcs, h⟩ =>
      ⟨e, hcs, fieldsPre_mono (l := rest) hPQ h⟩) (h k hk)

end

end

end Stagecraft.Emit
