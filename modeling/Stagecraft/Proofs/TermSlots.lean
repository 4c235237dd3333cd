import Stagecraft.Proofs.SlotLogic

/-!
# Terms that find their slots

`Pushes` is what it means for a flat term to be laid out well: in every model in which the variables
in scope have their slots, its code finds the slots it asks for and leaves those of its type on top.
There is one lemma for each constructor, which says which types make the term well laid out when its
parts are. A function that is laid out well is never a defect for code generation (`Packs`).
-/

namespace Stagecraft.Emit

open Target (StackKind Source Instruction)
open Flat (Ty Pattern Term)
open Emit.Frame (anonymous)

/-- In every model in which the variables have their slots, the code of a term finds what it asks for
and pushes the slots of its type, of which there are no more than the term weighs. -/
def Pushes (vars : Typed) (t : Term) : Prop :=
  ∀ (options : Options) (F : Frame), F.Covers vars → F.Small (termWeight t) →
    Finds (term options t) F fun _ G =>
      G = anonymous t.ty.erase ++ F ∧ t.ty.erase.length ≤ termWeight t

theorem Frame.Small.anonymous_append {F : Frame} {ks : List StackKind} {w w' : Nat} (h : F.Small w)
    (hle : ks.length + w' ≤ w) : (anonymous ks ++ F).Small w' :=
  h.mono fun k => by
    have hk : ks.count k ≤ ks.length := List.count_le_length
    rw [Frame.on_append, List.length_append, Frame.length_anonymous]
    omega

theorem Frame.Small.le {F : Frame} {w w' : Nat} (h : F.Small w) (hle : w' ≤ w) : F.Small w' :=
  h.mono fun _ => Nat.add_le_add_left hle _

section

variable {options : Options} {vars : Typed} {F : Frame}

/-- A term of one slot is pushed, stored somewhere and dropped again. -/
theorem Pushes.stored {t : Term} (h : Pushes vars t) (hF : F.Covers vars)
    (hsmall : F.Small (termWeight t)) (what : String) (store : StackKind → Instruction)
    {rest : EmitM Unit} (hrest : Finds rest F fun _ G => G = F) :
    Finds (do
      let k ← oneSlot t.ty what
      term options t
      emit (store k)
      drop options k []
      rest) F fun _ G => G = F := by
  refine (finds_oneSlot t.ty what).bind ?_
  rintro k _ ⟨hk, rfl⟩
  refine (h options _ hF hsmall).bind ?_
  rintro _ _ ⟨rfl, -⟩
  rw [hk]
  refine (Finds.emit _).bind ?_
  rintro _ _ rfl
  refine (finds_drop options k).bind ?_
  rintro _ _ rfl
  exact hrest

theorem finds_terms : ∀ (es : List Term) (F : Frame), (∀ e ∈ es, Pushes vars e) →
    F.Covers vars → F.Small (termsWeight es) → Finds (terms options es) F fun _ G =>
      G = anonymous (es.flatMap fun e => e.ty.erase) ++ F ∧
        (es.flatMap fun e => e.ty.erase).length ≤ termsWeight es
  | [], F, _, _, _ => by
    rw [terms]
    exact Finds.ret ⟨rfl, Nat.le_refl 0⟩
  | e :: es, F, h, hF, hsmall => by
    rw [termsWeight] at hsmall
    rw [terms]
    refine (h e List.mem_cons_self options F hF (hsmall.le (Nat.le_add_right _ _))).bind ?_
    rintro _ _ ⟨rfl, hlen⟩
    have hrest := finds_terms es (anonymous e.ty.erase ++ F)
      (fun d hd => h d (List.mem_cons_of_mem _ hd)) (hF.append _)
      (hsmall.anonymous_append (by omega))
    refine hrest.mono ?_
    rintro _ _ ⟨rfl, hlen'⟩
    rw [List.flatMap_cons, Frame.anonymous_append, Frame.append_assoc, List.length_append,
      termsWeight]
    exact ⟨rfl, Nat.add_le_add hlen hlen'⟩

theorem finds_arrayElements (shell : StackKind) (kind : ArrayKind) :
    ∀ (es : List Term) (index : Nat), (∀ e ∈ es, Pushes vars e) → F.Covers vars →
      F.Small (termsWeight es) →
      Finds (arrayElements options shell kind index es) F fun _ G => G = F
  | [], index, _, _, _ => by
    rw [arrayElements]
    exact Finds.ret rfl
  | e :: es, index, h, hF, hsmall => by
    rw [termsWeight] at hsmall
    have hrest := finds_arrayElements shell kind es (index + 1)
      (fun d hd => h d (List.mem_cons_of_mem _ hd)) hF (hsmall.le (Nat.le_add_left _ _))
    rw [arrayElements]
    split
    · exact (h e List.mem_cons_self).stored hF (hsmall.le (Nat.le_add_right _ _)) _ _ hrest
    · exact hrest

theorem finds_listElements : ∀ es : List Term, (∀ e ∈ es, Pushes vars e) → F.Covers vars →
    F.Small (termsWeight es) → Finds (listElements options es) F fun _ G => G = F
  | [], _, _, _ => by
    rw [listElements]
    exact Finds.ret rfl
  | e :: es, h, hF, hsmall => by
    rw [termsWeight] at hsmall
    have hrest := finds_listElements es (fun d hd => h d (List.mem_cons_of_mem _ hd)) hF
      (hsmall.le (Nat.le_add_left _ _))
    rw [listElements]
    exact (h e List.mem_cons_self).stored hF (hsmall.le (Nat.le_add_right _ _)) _ _ hrest

theorem finds_compoundFields : ∀ fields : List (String × Term),
    (∀ f ∈ fields, Pushes vars f.2) → F.Covers vars → F.Small (fieldsWeight fields) →
      Finds (compoundFields options fields) F fun _ G => G = F
  | [], _, _, _ => by
    rw [compoundFields]
    exact Finds.ret rfl
  | (key, e) :: rest, h, hF, hsmall => by
    rw [fieldsWeight] at hsmall
    have hrest := finds_compoundFields rest (fun d hd => h d (List.mem_cons_of_mem _ hd)) hF
      (hsmall.le (Nat.le_add_left _ _))
    rw [compoundFields]
    exact (h _ List.mem_cons_self).stored hF (hsmall.le (Nat.le_add_right _ _)) _ _ hrest

theorem finds_jump (options : Options) (thenName elseName : DefName) :
    Finds (jump options thenName elseName) F fun _ G => G = F := by
  unfold jump
  refine (Finds.emit _).bind ?_
  rintro _ _ rfl
  exact Finds.emit _

end

/-! ## One lemma for each constructor -/

namespace Pushes

variable {vars : Typed} {ty : Ty}

theorem literal (l : Literal) : Pushes vars (.literal ty l) := by
  intro options F hF hsmall
  rw [term]
  refine (finds_oneSlot ty _).bind ?_
  rintro k _ ⟨hk, rfl⟩
  refine (finds_push options k _).mono ?_
  rintro _ _ rfl
  simp only [Term.ty, hk, termWeight, List.length_singleton, Nat.le_refl, and_self]

theorem array (kind : ArrayKind) {es : List Term} (h : ∀ e ∈ es, Pushes vars e) :
    Pushes vars (.array ty kind es) := by
  intro options F hF hsmall
  rw [termWeight] at hsmall
  rw [term]
  refine (finds_oneSlot ty _).bind ?_
  rintro k F ⟨hk, rfl⟩
  refine (finds_push options k _).bind ?_
  rintro _ _ rfl
  have helements : Finds (arrayElements options k kind 0 es) (anonymous [k] ++ F) fun _ G =>
      G = anonymous [k] ++ F := finds_arrayElements k kind es 0 h (hF.append _)
        (hsmall.anonymous_append (by rw [List.length_singleton]; omega))
  refine helements.mono ?_
  rintro _ _ rfl
  simp only [Term.ty, hk, termWeight, List.length_singleton, true_and]
  omega

theorem list {es : List Term} (hty : ty.erase = [.list]) (h : ∀ e ∈ es, Pushes vars e) :
    Pushes vars (.list ty es) := by
  intro options F hF hsmall
  rw [termWeight] at hsmall
  rw [term]
  refine (finds_push options .list _).bind ?_
  rintro _ _ rfl
  have helements : Finds (listElements options es) (anonymous [.list] ++ F) fun _ G =>
      G = anonymous [.list] ++ F := finds_listElements es h (hF.append _)
        (hsmall.anonymous_append (Nat.le_refl _))
  refine helements.mono ?_
  rintro _ _ rfl
  simp only [Term.ty, hty, termWeight, List.length_singleton, true_and]
  omega

theorem compound {fields : List (String × Term)} (hty : ty.erase = [.compound])
    (h : ∀ f ∈ fields, Pushes vars f.2) : Pushes vars (.compound ty fields) := by
  intro options F hF hsmall
  rw [termWeight] at hsmall
  rw [term]
  refine (finds_push options .compound _).bind ?_
  rintro _ _ rfl
  have hfields : Finds (compoundFields options fields) (anonymous [.compound] ++ F) fun _ G =>
      G = anonymous [.compound] ++ F := finds_compoundFields fields h (hF.append _)
        (hsmall.anonymous_append (Nat.le_refl _))
  refine hfields.mono ?_
  rintro _ _ rfl
  simp only [Term.ty, hty, termWeight, List.length_singleton, true_and]
  omega

theorem ref (e : Term) : Pushes vars (.ref ty e) := by
  intro options F hF hsmall
  rw [term]
  exact Finds.unsupported

theorem tuple {es : List Term} (hty : ty.erase = es.flatMap fun e => e.ty.erase)
    (h : ∀ e ∈ es, Pushes vars e) : Pushes vars (.tuple ty es) := by
  intro options F hF hsmall
  rw [term]
  refine (finds_terms es F h hF hsmall).mono ?_
  rintro _ _ hG
  simpa only [Term.ty, hty, termWeight] using hG

theorem closure (tag : Nat) {captures : List Flat.Capture} (hty : ty.erase = [.compound])
    (h : ∀ c ∈ captures, (c.v, c.ty) ∈ vars) : Pushes vars (.closure ty tag captures) := by
  intro options F hF hsmall
  rw [term]
  refine (finds_push options .compound _).bind ?_
  rintro _ _ rfl
  refine (finds_storeCaptures captures fun c hc => (hF _ (h c hc)).append _).mono ?_
  rintro _ _ rfl
  simp only [Term.ty, hty, termWeight, List.length_singleton, Nat.le_refl, and_self]

theorem branch {c a : Term} (thenName elseName : DefName) (hc : Pushes vars c)
    (hcty : c.ty.erase = [.byte]) (ha : Pushes vars a) :
    Pushes vars (.branch ty c a thenName elseName) := by
  intro options F hF hsmall
  rw [termWeight] at hsmall
  rw [term]
  refine (hc options F hF (hsmall.le (by omega))).bind ?_
  rintro _ _ ⟨rfl, -⟩
  rw [hcty]
  refine (Finds.emit _).bind ?_
  rintro _ _ rfl
  refine (finds_drop options .byte).bind ?_
  rintro _ _ rfl
  refine (ha options _ hF (hsmall.le (by omega))).bind ?_
  rintro _ _ ⟨rfl, -⟩
  refine (finds_jump options thenName elseName).bind ?_
  rintro _ _ rfl
  refine (finds_forget a.ty.erase).bind ?_
  rintro _ _ rfl
  refine (finds_pushAll ty.erase).mono ?_
  rintro _ _ rfl
  refine ⟨rfl, ?_⟩
  simp only [Term.ty, termWeight]
  omega

/-- The slots that a binder leaves are dropped under the value of the body. -/
theorem letIn {binder : Pattern} {init body : Term} (hdrop : binder.has .noDrop = false)
    (hinit : Pushes vars init) (hbinder : patternKindsAgree binder)
    (hbty : binder.ty.erase = init.ty.erase) (hbody : Pushes (vars ++ typedBinders binder) body)
    (hty : ty.erase = body.ty.erase) : Pushes vars (.letIn ty binder init body) := by
  intro options F hF hsmall
  rw [termWeight] at hsmall
  rw [term]
  refine (hinit options F hF (hsmall.le (by omega))).bind ?_
  rintro _ _ ⟨rfl, hlen⟩
  have hbind := finds_bind options binder .empty F hbinder rfl
  rw [Frame.empty_append, hbty] at hbind
  refine (hbind (hsmall.anonymous_append (by omega))).bind ?_
  rintro frame _ ⟨B, rfl, hB⟩
  have hcovers : (B ++ F).Covers (vars ++ typedBinders binder) := by
    intro e he
    rcases List.mem_append.1 he with he | he
    · exact (hF e he).append B
    · exact (hB.holds e he).append_right F
  have hinner : (B ++ F).Small (termWeight body) := hsmall.mono fun k => by
    have h₁ := hB.length k
    have h₂ := hB.few k
    have h₃ : init.ty.erase.count k ≤ init.ty.erase.length := List.count_le_length
    simp only [Frame.on_append, List.length_append, Frame.on_empty, List.length_nil] at h₁ ⊢
    omega
  refine (hbody options _ hcovers hinner).bind ?_
  rintro _ _ ⟨rfl, hlen'⟩
  rw [if_neg (by simp [hdrop])]
  have hlt : ∀ k, body.ty.erase.count k < 2 ^ 31 := fun k => by
    have h₁ := hinner k
    have h₂ : body.ty.erase.count k ≤ body.ty.erase.length := List.count_le_length
    omega
  have hframe : ∀ k, (B.on k).length = frame.reverse.count k := fun k => by
    rw [List.count_reverse, hB.length, Frame.on_empty, List.length_nil, Nat.zero_add]
  rw [← Frame.append_assoc]
  refine (finds_dropAll options (Frame.length_anonymous _) hlt frame.reverse B hframe).mono ?_
  rintro _ _ rfl
  have hnode : (Term.letIn ty binder init body).ty.erase = body.ty.erase := hty
  rw [hnode, termWeight]
  exact ⟨rfl, by omega⟩

theorem var {v : Var} {σ : Ty} (h : (v, σ) ∈ vars) (hty : ty.erase = σ.erase) :
    Pushes vars (.var ty v) := by
  intro options F hF hsmall
  rw [term]
  refine (finds_copySlots options v ty.erase [] F fun k => ?_).mono ?_
  · rw [List.nil_append, hty]
    exact hF _ h k
  · rintro _ _ rfl
    exact ⟨rfl, Nat.le_refl _⟩

theorem call (name : DefName) {a : Term} (ha : Pushes vars a) : Pushes vars (.call ty name a) := by
  intro options F hF hsmall
  rw [termWeight] at hsmall
  rw [term]
  refine (ha options F hF (hsmall.le (by omega))).bind ?_
  rintro _ _ ⟨rfl, -⟩
  refine (Finds.emit _).bind ?_
  rintro _ _ rfl
  refine (finds_forget a.ty.erase).bind ?_
  rintro _ _ rfl
  refine (finds_pushAll ty.erase).mono ?_
  rintro _ _ rfl
  refine ⟨rfl, ?_⟩
  simp only [Term.ty, termWeight]
  omega

theorem test {e : Term} {p : Pattern} (hty : ty.erase = [.byte]) (he : Pushes vars e)
    (hp : patternKindsAgree p) (hpty : p.ty.erase = e.ty.erase) : Pushes vars (.test ty e p) := by
  intro options F hF hsmall
  rw [termWeight] at hsmall
  rw [term]
  refine (he options F hF (hsmall.le (by omega))).bind ?_
  rintro _ _ ⟨rfl, -⟩
  rw [← hpty]
  refine (Finds.emit _).bind ?_
  rintro _ _ rfl
  refine (finds_test options p F hp).bind ?_
  rintro _ _ rfl
  refine (finds_push options .byte _).bind ?_
  rintro _ _ rfl
  refine (Finds.emit _).mono ?_
  rintro _ _ rfl
  simp only [Term.ty, hty, termWeight, List.length_singleton, true_and]
  omega

theorem command (line : String) : Pushes vars (.command ty line) := by
  intro options F hF hsmall
  rw [term]
  refine (Finds.comment options _).bind ?_
  rintro _ _ rfl
  refine (Finds.emit _).bind ?_
  rintro _ _ rfl
  refine (finds_pushAll ty.erase).mono ?_
  rintro _ _ rfl
  exact ⟨rfl, Nat.le_refl _⟩

end Pushes

/-! ## Functions -/

/-- Code generation does not find a defect in a function whose slots can be addressed. -/
def Packs (f : Flat.Function) : Prop :=
  functionWeight f < 2 ^ 31 → ∀ options e, function options f = .error e → e.isDefect = false

theorem checkShape_ok {name : DefName} {ks : List StackKind} {slots : Slots}
    (h : slots.stack = (anonymous ks).uses) : checkShape name ks slots = .ok () := by
  have hall : ∀ kinds : List StackKind, (kinds.forM fun k =>
      if ks.count k = slots.length k then (.ok () : Except Error Unit)
      else .error (.shapeMismatch name.text k (ks.count k) (slots.length k))) = .ok () := by
    intro kinds
    induction kinds with
    | nil => rfl
    | cons k kinds ih =>
      have hk : ks.count k = slots.length k := by
        rw [Slots.length, h, Frame.uses, List.length_map, Frame.length_anonymous]
      change ((if ks.count k = slots.length k then (.ok () : Except Error Unit) else _) >>= fun _ =>
        kinds.forM _) = _
      rw [if_pos hk]
      exact ih
  exact hall _

/-- A function is laid out well if its binder is, its body is under the binder, and the body pushes
the slots of the result. -/
theorem packs_of_pushes {f : Flat.Function} (hf : f.has .noDrop = false)
    (hdrop : f.binder.has .noDrop = false) (hbinder : patternKindsAgree f.binder)
    (hbody : Pushes (typedBinders f.binder) f.body) (hresult : f.body.ty.erase = f.result.erase) :
    Packs f := by
  intro hweight options e he
  have hsmall : Frame.empty.Small (functionWeight f) := fun k => by
    rw [Frame.on_empty, List.length_nil, Nat.zero_add]
    exact hweight
  rw [functionWeight] at hsmall
  have hrun : Finds (functionBody options f) .empty fun _ _ => True := by
    unfold functionBody
    refine (Finds.comment options _).bind ?_
    rintro _ _ rfl
    refine (finds_pushAll f.binder.ty.erase).bind ?_
    rintro _ _ rfl
    have harguments :
        (anonymous f.binder.ty.erase ++ Frame.empty).Small (patternWeight f.binder) :=
      hsmall.anonymous_append (by omega)
    have hbind := finds_bind options f.binder .empty .empty hbinder rfl harguments
    refine Finds.bind hbind ?_
    rintro frame _ ⟨B, rfl, hB⟩
    rw [Frame.append_empty]
    have hinner : B.Small (termWeight f.body) := hsmall.mono fun k => by
      have h₁ := hB.length k
      have h₂ := hB.few k
      have h₃ : f.binder.ty.erase.count k ≤ f.binder.ty.erase.length := List.count_le_length
      simp only [Frame.on_empty, List.length_nil] at h₁ ⊢
      omega
    refine (hbody options B hB.holds hinner).bind ?_
    rintro _ _ ⟨rfl, hlen⟩
    have hlt : ∀ k, f.result.erase.count k < 2 ^ 31 := fun k => by
      have h₁ := hinner k
      have h₂ : f.result.erase.count k ≤ f.result.erase.length := List.count_le_length
      rw [hresult] at hlen
      omega
    have hframe : ∀ k, (B.on k).length = frame.reverse.count k := fun k => by
      rw [List.count_reverse, hB.length, Frame.on_empty, List.length_nil, Nat.zero_add]
    have hdropAll := finds_dropAll options (R := .empty) (Frame.length_anonymous _) hlt
      frame.reverse B hframe
    rw [Frame.append_empty, Frame.append_empty] at hdropAll
    rw [hresult, hf, hdrop]
    simp only [Bool.or_self, Bool.false_eq_true, if_false]
    refine hdropAll.bind ?_
    rintro _ _ rfl
    refine (Finds.ask fun slots h => checkShape_ok h).bind ?_
    rintro _ _ ⟨-, rfl⟩
    split
    · exact (Finds.emit _).mono fun _ _ _ => trivial
    · exact Finds.ret trivial
  have hempty : Slots.empty.stack = Frame.empty.uses := by
    funext k
    simp [Slots.empty, Slots.stack, Frame.uses]
  have hout := hrun.run ⟨.empty, #[]⟩ hempty
  unfold function at he
  cases hr : functionBody options f ⟨.empty, #[]⟩ with
  | ok r =>
    simp only [StateT.run, hr] at he
    cases he
  | error err =>
    rw [hr] at hout
    simp only [StateT.run, hr] at he
    cases he
    exact hout

end Stagecraft.Emit
