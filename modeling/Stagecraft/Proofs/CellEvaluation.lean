import Stagecraft.Proofs.ValueCells

/-!
# Evaluation on slots

What code does with slots is what evaluation does with values. The weakest precondition of a
well-typed term holds if the condition holds of the cells of every value that the term may have
(`meets_of_hasType`); nothing is said of a term that has none. Callees are known by what running
them on values gives (`Gives`): a function, a builtin, the body of a local function on its argument
and its closure, and the dispatcher, which runs the body of the tag of the closure.
-/

namespace Stagecraft.Emit

open Target (StackKind Nbt)
open Flat (Ty Pattern Term Value Capture Binding Bindings HasType HaveTypes FieldsHaveTypes Inhabits
  AllInhabit FieldsInhabit Evaluates EvaluatesAll EvaluatesFields Runs Capturable closureBinder
  capturesTy captureFields captured? scalarKind arrayKind)

/-! ## Callees -/

section

variable (P : Flat.Program) (takes : DefName → Ty → Ty → Prop)

/-- What calling a definition on an argument gives: the cells of a value of a type, of which a
property is known, and a score in the result register, if the definition restores one. -/
inductive Gives : DefName → Cells → Ty → Option Int32 → (Value → Prop) → Prop
  | function {name f w} : P.function? name = some f → f.WellTyped P takes →
      Inhabits P takes w f.binder.ty →
      Gives name (cells w) f.result f.restore (Runs P name w)
  | builtin {name b w} : P.find? name = some (.builtin b) → Inhabits P takes w b.param →
      Gives name (cells w) b.result none (Runs P name w)
  | body {Γ tag name p captures τ b w captured} : P.closures.bodies[tag]? = some name →
      Capturable Γ captures → p.WellTyped 0 →
      P.function? name =
        some ⟨[], name, closureBinder p captures, τ, b, some (Int32.ofNat tag)⟩ →
      HasType P takes (p.types ++ captures.map (·.ty)) b τ → Inhabits P takes w p.ty →
      FieldsInhabit P takes captured (captures.map fun c => (c.v.name, c.ty)) →
      Gives name (cells (.tuple [w, .closure tag captured])) τ (some (Int32.ofNat tag))
        (Runs P name (.tuple [w, .compound captured]))
  | dispatcher {tag name w captured σ τ} : P.closures.bodies[tag]? = some name →
      Inhabits P takes w σ → Inhabits P takes (.closure tag captured) (.function σ τ) →
      Gives Flat.dispatcher (cells (.tuple [w, .closure tag captured])) τ none
        (Runs P name (.tuple [w, .compound captured]))

/-- Callees that give what running them gives. -/
def runCallees : Callees where
  pre name keeps as Q := ∃ τ restore R, Gives P takes name as τ restore R ∧
    (keeps → ∃ n, restore = some n ∧ 1 ≤ n) ∧ ∀ r, R r → Inhabits P takes r τ → Q (cells r)
  mono := by
    rintro name keeps as Q Q' hQ ⟨τ, restore, R, hgives, hkeeps, h⟩
    exact ⟨τ, restore, R, hgives, hkeeps, fun r hr hτ => hQ _ (h r hr hτ)⟩

/-- In every environment of the types in scope, a condition that holds of the cells of every value
of the term holds after the code of the term. -/
structure Meets (Γ : List Ty) (t : Term) (τ : Ty) : Prop where
  ty : t.ty = τ
  pre : ∀ {ρ : List Value} {bs : Bound} {Q : Cells → Prop}, AllInhabit P takes ρ Γ →
    Carries 0 ρ bs → termWeight t < 2 ^ 31 →
    (∀ w, Evaluates P ρ t w → Inhabits P takes w τ → Q (cells w)) →
      termPre (runCallees P takes) t bs Q

end

section

variable {P : Flat.Program} {takes : DefName → Ty → Ty → Prop}

theorem callPre_of_gives {name : DefName} {keeps : Bool} {as : Cells} {τ : Ty}
    {restore : Option Int32} {R : Value → Prop} {Q : Cells → Prop}
    (h : Gives P takes name as τ restore R) (hkeeps : keeps → ∃ n, restore = some n ∧ 1 ≤ n)
    (hQ : ∀ r, R r → Inhabits P takes r τ → Q (cells r)) :
    callPre (runCallees P takes) name keeps as τ Q :=
  ⟨τ, restore, R, h, hkeeps, fun r hr hτ => ⟨kinds_cells hτ, hQ r hr hτ⟩⟩

/-! ## Terms without parts -/

theorem meets_literal {Γ : List Ty} (l : Literal) :
    Meets P takes Γ (.literal (.scalar l.scalar) l) (.scalar l.scalar) := by
  refine ⟨rfl, fun _ _ _ hQ k hk => ?_⟩
  obtain rfl : scalarKind l.scalar = k := by simpa [Ty.erase] using hk
  rw [← kindOf_ofLiteral]
  exact hQ _ .literal .literal

theorem meets_var {Γ : List Ty} {v : Var} {τ : Ty} (hv : Γ[v.level]? = some τ) :
    Meets P takes Γ (.var τ v) τ := by
  refine ⟨rfl, fun hρ hbs _ hQ => ?_⟩
  obtain ⟨w, hw, hτ⟩ := hρ.getElem? hv
  have hfind := hbs v.level
  rw [if_pos (Nat.zero_le _), Nat.sub_zero, hw] at hfind
  exact ⟨cells w, hfind, kinds_cells hτ, hQ w (.var hw) hτ⟩

mutual

/-- The value of a type without slots. -/
theorem blank_spec : ∀ {τ : Ty} {w : Value}, τ.blank? = some w →
    τ.erase = [] ∧ cells w = [] ∧ Inhabits P takes w τ
  | .tuple τs, w, h => by
    obtain ⟨ws, hws, rfl⟩ := Option.map_eq_some_iff.1 h
    obtain ⟨herase, hcells, hinhabit⟩ := blanks_spec hws
    rw [Ty.erase, cells]
    exact ⟨herase, hcells, .tuple hinhabit⟩
  | .scalar _, _, h | .array _, _, h | .list _, _, h | .compound _, _, h | .ref _, _, h
  | .function .., _, h | .union _, _, h => nomatch h

theorem blanks_spec : ∀ {τs : List Ty} {ws : List Value}, Ty.blanks? τs = some ws →
    Ty.eraseAll τs = [] ∧ cellsAll ws = [] ∧ AllInhabit P takes ws τs
  | [], ws, h => by
    cases h
    exact ⟨rfl, rfl, .nil⟩
  | τ :: τs, ws, h => by
    simp only [Ty.blanks?, Option.bind_eq_bind, Option.bind_eq_some_iff, Option.pure_def,
      Option.some.injEq] at h
    obtain ⟨w, hw, ws, hws, rfl⟩ := h
    obtain ⟨herase, hcells, hinhabit⟩ := blank_spec hw
    obtain ⟨herases, hcellss, hinhabits⟩ := blanks_spec hws
    refine ⟨?_, ?_, .cons hinhabit hinhabits⟩
    · rw [Ty.eraseAll, herase, herases, List.nil_append]
    · rw [cellsAll, hcells, hcellss, List.nil_append]

end

theorem meets_command {Γ : List Ty} {τ : Ty} {w : Value} {line : String} (hw : τ.blank? = some w) :
    Meets P takes Γ (.command τ line) τ := by
  refine ⟨rfl, fun _ _ _ hQ => ?_⟩
  obtain ⟨herase, hcells, hτ⟩ : τ.erase = [] ∧ cells w = [] ∧ Inhabits P takes w τ :=
    blank_spec hw
  have hdone := hQ w (.command hw) hτ
  rw [hcells] at hdone
  refine ⟨fun k hk => ?_, ?_⟩
  · rw [herase] at hk
    cases hk
  · rwa [herase]

/-! ## Arrays -/

/-- What an array has before its computed elements are stored: something that is no number stands
for those. -/
def constantSlot (kind : ArrayKind) (t : Term) : Nbt := (constant? kind t).getD (.list [])

theorem arrayShell_eq (kind : ArrayKind) (es : List Term) :
    arrayShell kind es = arrayOf kind (es.map (constantSlot kind)) := by
  cases kind <;> simp only [arrayShell, arrayOf, List.map_map] <;> congr 2 <;> funext e <;>
    rw [Function.comp, constantSlot]
  case byte => rcases constant? .byte e with _ | v <;> [rfl; cases v <;> rfl]
  case int => rcases constant? .int e with _ | v <;> [rfl; cases v <;> rfl]
  case long => rcases constant? .long e with _ | v <;> [rfl; cases v <;> rfl]

/-- Constant elements are literals. -/
theorem exists_literal {kind : ArrayKind} {t : Term} (h : ¬ (constant? kind t).isNone) :
    ∃ τ l, t = .literal τ l ∧ constantSlot kind t = .ofLiteral l := by
  cases t with
  | literal τ l =>
    refine ⟨τ, l, rfl, ?_⟩
    cases kind <;> cases l <;> first | rfl | exact absurd rfl h
  | _ => exact absurd rfl h

theorem exists_of_inhabits_scalar {w : Value} {s : Scalar} (h : Inhabits P takes w (.scalar s)) :
    ∃ l, w = .literal l ∧ l.scalar = s := by
  generalize hτ : Ty.scalar s = τ at h
  cases h with
  | literal =>
    cases hτ
    exact ⟨_, rfl, rfl⟩
  | _ => cases hτ

/-- An element of an array is replaced by a number of its kind. -/
theorem withPart_arrayOf {kind : ArrayKind} {before after : List Nbt} {e : Nbt} (v : Nbt)
    (hn : before.length + (after.length + 1) < 2 ^ 31) (he : kindOf e = scalarKind kind.scalar)
    (m : Machine.Error) :
    Machine.withPart m (.index (Int32.ofNat before.length)) e
        (arrayOf kind (before ++ v :: after)) =
      .ok (arrayOf kind (before ++ e :: after)) := by
  have hset : (before ++ v :: after).set before.length e = before ++ e :: after := by simp
  cases kind <;> cases e <;> cases he
  all_goals
    rw [arrayOf, Machine.withPart, replaced_ofNat (by simp) (by simpa using hn), ← hset,
      arrayOf, List.map_set]
    rfl

/-! ## Several terms -/

section

variable {Γ : List Ty} {ρ : List Value} {bs : Bound} (hρ : AllInhabit P takes ρ Γ)
  (hbs : Carries 0 ρ bs)

include hρ hbs

theorem listPre_of_meets {σ : Ty} {ts : List Term} (hts : ∀ t ∈ ts, Meets P takes Γ t σ)
    (hw : termsWeight ts < 2 ^ 31) (vs : List Value) {Q : List Nbt → Prop}
    (hQ : ∀ ws, EvaluatesAll P ρ ts ws → (∀ w ∈ ws, Inhabits P takes w σ) →
      Q (slotsOf (vs ++ ws))) : listPre (runCallees P takes) ts bs (slotsOf vs) Q := by
  induction ts generalizing vs with
  | nil =>
    have hdone := hQ [] .nil fun _ h => nomatch h
    rwa [List.append_nil] at hdone
  | cons t ts ih =>
    rw [termsWeight] at hw
    intro k hk
    have ht := hts t List.mem_cons_self
    rw [ht.ty] at hk
    refine ht.pre hρ hbs (by omega) fun w hw hσ => ⟨onlySlot (cells w), cells_of_erase hσ hk, ?_⟩
    have hmore : slotsOf vs ++ [onlySlot (cells w)] = slotsOf (vs ++ [w]) := by
      rw [slotsOf_append]
      rfl
    rw [hmore]
    refine ih (fun t ht => hts t (List.mem_cons_of_mem _ ht)) (by omega) _
      fun ws hws hinhabit => ?_
    rw [List.append_assoc]
    exact hQ (w :: ws) (.cons hw hws) (List.forall_mem_cons.2 ⟨hσ, hinhabit⟩)

/-- The computed elements of an array are stored in place of what stands for them. -/
theorem elementsPre_of_meets {kind : ArrayKind} {ts : List Term}
    (htypes : ∀ t ∈ ts, HasType P takes Γ t (.scalar kind.scalar))
    (hts : ∀ t ∈ ts, Meets P takes Γ t (.scalar kind.scalar)) (hw : termsWeight ts < 2 ^ 31)
    (vs : List Value) (hsize : vs.length + ts.length < 2 ^ 31) {Q : Nbt → Prop}
    (hQ : ∀ ws, EvaluatesAll P ρ ts ws → (∀ w ∈ ws, Inhabits P takes w (.scalar kind.scalar)) →
      Q (arrayOf kind (slotsOf (vs ++ ws)))) :
    elementsPre (runCallees P takes) (arrayKind kind) kind vs.length ts bs
      (arrayOf kind (slotsOf vs ++ ts.map (constantSlot kind))) Q := by
  induction ts generalizing vs with
  | nil =>
    have hdone := hQ [] .nil fun _ h => nomatch h
    rw [List.map_nil, List.append_nil]
    rwa [List.append_nil] at hdone
  | cons t ts ih =>
    have ht := hts t List.mem_cons_self
    rw [termsWeight] at hw
    rw [List.length_cons] at hsize
    -- once the element is in place, the rest goes on behind it
    have hrest : ∀ w, Evaluates P ρ t w → Inhabits P takes w (.scalar kind.scalar) →
        elementsPre (runCallees P takes) (arrayKind kind) kind (vs.length + 1) ts bs
          (arrayOf kind (slotsOf vs ++ onlySlot (cells w) :: ts.map (constantSlot kind))) Q := by
      intro w hw hσ
      have hslots : slotsOf vs ++ onlySlot (cells w) :: ts.map (constantSlot kind) =
          slotsOf (vs ++ [w]) ++ ts.map (constantSlot kind) := by
        rw [slotsOf_append, List.append_assoc]
        rfl
      have hlength : vs.length + 1 = (vs ++ [w]).length := by simp
      rw [hslots, hlength]
      refine ih (fun t ht => htypes t (List.mem_cons_of_mem _ ht))
        (fun t ht => hts t (List.mem_cons_of_mem _ ht)) (by omega) _ (by omega)
        fun ws hws hinhabit => ?_
      rw [List.append_assoc]
      exact hQ (w :: ws) (.cons hw hws) (List.forall_mem_cons.2 ⟨hσ, hinhabit⟩)
    rw [elementsPre, List.map_cons]
    by_cases hc : (constant? kind t).isNone
    · rw [if_pos hc]
      intro k hk
      rw [ht.ty] at hk
      obtain rfl : scalarKind kind.scalar = k := by simpa [Ty.erase] using hk
      refine ht.pre hρ hbs (by omega) fun w hw hσ =>
        ⟨onlySlot (cells w), _, cells_of_erase hσ hk, ?_, fun m => ?_, hrest w hw hσ⟩
      · cases kind <;> decide
      · obtain ⟨l, rfl, hl⟩ := exists_of_inhabits_scalar hσ
        rw [← length_slotsOf vs]
        refine withPart_arrayOf _ ?_ ((kindOf_ofLiteral l).trans (congrArg scalarKind hl)) m
        rwa [length_slotsOf, List.length_map]
    · rw [if_neg hc]
      obtain ⟨τ, l, rfl, hslot⟩ := exists_literal hc
      have hτ : (Ty.scalar kind.scalar) = .scalar l.scalar := by
        have htype := htypes _ List.mem_cons_self
        generalize Ty.scalar kind.scalar = σ at htype
        cases htype
        rfl
      rw [hslot]
      exact hrest (.literal l) .literal (hτ ▸ .literal)

theorem fieldsPre_of_meets {ts : List (String × Term)} {τs : List (String × Ty)}
    (hts : List.Forall₂ (fun f τ => f.1 = τ.1 ∧ Meets P takes Γ f.2 τ.2) ts τs)
    (hw : fieldsWeight ts < 2 ^ 31) (fields : List (String × Value))
    (hnodup : (fields.map (·.1) ++ ts.map (·.1)).Nodup) {Q : List (String × Nbt) → Prop}
    (hQ : ∀ more, EvaluatesFields P ρ ts more → FieldsInhabit P takes more τs →
      Q (fieldSlots (fields ++ more))) :
    fieldsPre (runCallees P takes) ts bs (fieldSlots fields) Q := by
  induction hts generalizing fields with
  | nil =>
    have hdone := hQ [] .nil .nil
    rwa [List.append_nil] at hdone
  | @cons f τ ts τs ht _ ih =>
    obtain ⟨key, t⟩ := f
    obtain ⟨key', τ⟩ := τ
    obtain ⟨rfl, ht⟩ := ht
    replace ht : Meets P takes Γ t τ := ht
    rw [fieldsWeight] at hw
    intro k hk
    rw [ht.ty] at hk
    refine ht.pre hρ hbs (by omega) fun w hw hσ => ⟨onlySlot (cells w), cells_of_erase hσ hk, ?_⟩
    have hkey : key ∉ Keyed.keys (fieldSlots fields) := by
      rw [keys_fieldSlots]
      exact fun hmem => (List.nodup_append.1 hnodup).2.2 _ hmem _ List.mem_cons_self rfl
    have hmore : fieldSlots fields ++ [(key, onlySlot (cells w))] =
        fieldSlots (fields ++ [(key, w)]) := by
      rw [fieldSlots_append]
      rfl
    rw [Keyed.insert_of_notMem hkey, hmore]
    refine ih (by omega) _ (by simpa using hnodup) fun more hmore hinhabit => ?_
    rw [List.append_assoc]
    exact hQ ((key, w) :: more) (.cons hw hmore) (.cons hσ hinhabit)

theorem termsPre_of_meets {ts : List Term} {τs : List Ty}
    (hts : List.Forall₂ (Meets P takes Γ) ts τs) (hw : termsWeight ts < 2 ^ 31)
    {Q : Cells → Prop} (hQ : ∀ ws, EvaluatesAll P ρ ts ws → AllInhabit P takes ws τs →
      Q (cellsAll ws)) : termsPre (runCallees P takes) ts bs Q := by
  induction hts generalizing Q with
  | nil => exact hQ [] .nil .nil
  | cons ht _ ih =>
    rw [termsWeight] at hw
    rw [termsPre]
    refine ht.pre hρ hbs (by omega) fun w hw hτ => ih (by omega) fun ws hws hτs => ?_
    exact hQ (w :: ws) (.cons hw hws) (.cons hτ hτs)

/-- A closure is the record of its tag and the captured variables. -/
theorem capturesPre_of_inScope {captures : List Capture}
    (hscope : ∀ c ∈ captures, Γ[c.v.level]? = some c.ty)
    (hnodup : (captures.map fun c => c.v.name).Nodup) {entries : List (String × Nbt)}
    (hnew : ∀ c ∈ captures, c.v.name ∉ entries.map (·.1)) {Q : List (String × Nbt) → Prop}
    (hQ : ∀ captured, captured? ρ captures = some captured →
      FieldsInhabit P takes captured (captures.map fun c => (c.v.name, c.ty)) →
        Q (entries ++ fieldSlots captured)) : capturesPre bs captures entries Q := by
  induction captures generalizing entries with
  | nil =>
    have hdone := hQ [] rfl .nil
    rwa [fieldSlots, List.append_nil] at hdone
  | cons c captures ih =>
    obtain ⟨w, hw, hτ⟩ := hρ.getElem? (hscope c List.mem_cons_self)
    have hslots : c.ty.erase ≠ [.endTag] := fun h =>
      ne_endTag_of_inhabits hτ .endTag (h ▸ List.mem_singleton_self _) rfl
    rw [capturesPre, if_neg hslots]
    intro k hk
    have hfind := hbs c.v.level
    rw [if_pos (Nat.zero_le _), Nat.sub_zero, hw, Option.map_some, cells_of_erase hτ hk] at hfind
    refine ⟨_, hfind, ?_⟩
    rw [Keyed.insert_of_notMem (hnew c List.mem_cons_self)]
    rw [List.map_cons, List.nodup_cons] at hnodup
    refine ih (fun c hc => hscope c (List.mem_cons_of_mem _ hc)) hnodup.2 (fun d hd => ?_)
      fun captured hcaptured hinhabit => ?_
    · rw [List.map_append, List.mem_append, not_or]
      refine ⟨hnew d (List.mem_cons_of_mem _ hd), fun h => hnodup.1 ?_⟩
      rw [List.map_singleton, List.mem_singleton] at h
      exact List.mem_map.2 ⟨d, hd, h⟩
    · rw [List.append_assoc]
      refine hQ ((c.v.name, w) :: captured) ?_ (.cons hτ hinhabit)
      rw [captured?, hw, hcaptured]
      rfl

end

/-! ## Terms -/

theorem meets_array {Γ : List Ty} {kind : ArrayKind} {es : List Term}
    (htypes : ∀ e ∈ es, HasType P takes Γ e (.scalar kind.scalar))
    (hes : ∀ e ∈ es, Meets P takes Γ e (.scalar kind.scalar)) :
    Meets P takes Γ (.array (.array kind) kind es) (.array kind) := by
  refine ⟨rfl, fun hρ hbs hw hQ k hk => ?_⟩
  obtain rfl : arrayKind kind = k := by simpa [Ty.erase] using hk
  rw [termWeight] at hw
  rw [arrayShell_eq]
  refine elementsPre_of_meets hρ hbs htypes hes (by omega) []
    (by rw [List.length_nil]; omega) fun ws hws hinhabit => ?_
  exact hQ (.array kind ws) (.array hws) (.array hinhabit)

theorem meets_list {Γ : List Ty} {σ : Ty} {es : List Term} (hes : ∀ e ∈ es, Meets P takes Γ e σ) :
    Meets P takes Γ (.list (.list σ) es) (.list σ) := by
  refine ⟨rfl, fun hρ hbs hw hQ => ?_⟩
  rw [termWeight] at hw
  refine listPre_of_meets hρ hbs hes (by omega) [] fun ws hws hinhabit => ?_
  exact hQ (.list ws) (.list hws) (.list hinhabit)

/-- The keys of a record are those of the term. -/
theorem keys_of_evaluates {ρ : List Value} {fields : List (String × Term)}
    {ws : List (String × Value)} (h : EvaluatesFields P ρ fields ws) :
    ws.map (·.1) = fields.map (·.1) := by
  induction fields generalizing ws with
  | nil =>
    cases h
    rfl
  | cons f fields ih =>
    cases h with
    | cons _ h => rw [List.map_cons, List.map_cons, ih h]

theorem meets_compound {Γ : List Ty} {fields : List (String × Term)} {τs : List (String × Ty)}
    (hnodup : (fields.map (·.1)).Nodup)
    (hfields : List.Forall₂ (fun f τ => f.1 = τ.1 ∧ Meets P takes Γ f.2 τ.2) fields τs) :
    Meets P takes Γ (.compound (.compound τs) fields) (.compound τs) := by
  refine ⟨rfl, fun hρ hbs hw hQ => ?_⟩
  rw [termWeight] at hw
  refine fieldsPre_of_meets hρ hbs hfields (by omega) [] hnodup
    fun more hmore hinhabit => ?_
  have hkeys := keys_of_evaluates hmore
  exact hQ (.compound more) (.compound hmore) (.compound (hkeys ▸ hnodup) hinhabit)

theorem meets_tuple {Γ : List Ty} {es : List Term} {τs : List Ty}
    (hes : List.Forall₂ (Meets P takes Γ) es τs) :
    Meets P takes Γ (.tuple (.tuple τs) es) (.tuple τs) := by
  refine ⟨rfl, fun hρ hbs hw hQ => ?_⟩
  rw [termWeight] at hw
  refine termsPre_of_meets hρ hbs hes hw fun ws hws hinhabit => ?_
  have hdone := hQ (.tuple ws) (.tuple hws) (.tuple hinhabit)
  rwa [cells] at hdone

theorem meets_closure {Γ : List Ty} {tag : Nat} {p : Pattern} {captures : List Capture} {τ : Ty}
    {b : Term} (hcaptures : Capturable Γ captures) (hp : p.WellTyped 0)
    (hbody : P.HasBody tag (closureBinder p captures) τ b)
    (hb : HasType P takes (p.types ++ captures.map (·.ty)) b τ) :
    Meets P takes Γ (.closure (.function p.ty τ) tag captures) (.function p.ty τ) := by
  refine ⟨rfl, fun hρ hbs _ hQ => ?_⟩
  refine capturesPre_of_inScope hρ hbs hcaptures.inScope hcaptures.nodup (fun c hc htag => ?_)
    fun captured hcaptured hinhabit => ?_
  · rw [List.map_singleton, List.mem_singleton] at htag
    exact hcaptures.noTag (List.mem_map.2 ⟨c, hc, htag⟩)
  · exact hQ _ (.closure hcaptured) (.closure hcaptures hp hbody hb hinhabit)

theorem meets_letIn {Γ : List Ty} {p : Pattern} {i b : Term} {τ : Ty}
    (hdrops : p.has .noDrop = false) (hp : p.WellTyped Γ.length) (hi : Meets P takes Γ i p.ty)
    (hb : Meets P takes (Γ ++ p.types) b τ) : Meets P takes Γ (.letIn τ p i b) τ := by
  refine ⟨rfl, fun {ρ bs Q} hρ hbs hw hQ => ⟨hdrops, ?_⟩⟩
  rw [termWeight] at hw
  refine hi.pre hρ hbs (by omega) fun w hw hσ => ?_
  rw [← hρ.length_eq] at hp
  refine binderPre_of_inhabits hp hσ fun ws copied kept hbind hws hbinds => ?_
  have hall : Carries 0 (ρ ++ ws) (copied ++ kept ++ bs) :=
    hbs.append (by rwa [Nat.zero_add])
  refine hb.pre (hρ.append hws) hall (by omega) fun r hr hτ => ⟨?_, ?_⟩
  · rw [hb.ty]
    exact kinds_cells hτ
  · exact hQ r (.letIn hw hbind hr) hτ

/-- Calling a definition on a value of its parameter type gives what running it gives. -/
theorem exists_gives (hP : P.WellTyped takes) {name : DefName} {σ τ : Ty}
    (htakes : takes name σ τ) {w : Value} (hw : Inhabits P takes w σ) :
    ∃ restore, Gives P takes name (cells w) τ restore (Runs P name w) := by
  obtain ⟨f, hf, hfun, rfl, rfl⟩ | ⟨b, hb, rfl, rfl⟩ := hP htakes
  · exact ⟨_, .function hf hfun hw⟩
  · exact ⟨_, .builtin hb hw⟩

theorem meets_call (hP : P.WellTyped takes) {Γ : List Ty} {name : DefName} {a : Term} {σ τ : Ty}
    (hname : name ≠ Flat.dispatcher) (htakes : takes name σ τ) (ha : Meets P takes Γ a σ) :
    Meets P takes Γ (.call τ name a) τ := by
  refine ⟨rfl, fun hρ hbs hw hQ => ?_⟩
  rw [termWeight] at hw
  refine ha.pre hρ hbs (by omega) fun w hw hσ => ⟨ha.ty ▸ kinds_cells hσ, ?_⟩
  obtain ⟨restore, hgives⟩ := exists_gives hP htakes hσ
  exact callPre_of_gives hgives (fun h => nomatch h) fun r hr => hQ r (.call hname hw hr)

/-- A function value has a body. -/
theorem exists_body_of_inhabits {w : Value} {σ τ : Ty}
    (h : Inhabits P takes w (.function σ τ)) :
    ∃ tag captured name, w = .closure tag captured ∧ P.closures.bodies[tag]? = some name := by
  generalize hty : Ty.function σ τ = ty at h
  cases h with
  | closure _ _ hbody =>
    obtain ⟨name, hname, -⟩ := hbody
    exact ⟨_, _, name, rfl, hname⟩
  | _ => cases hty

theorem meets_apply {Γ : List Ty} {a f : Term} {σ τ : Ty} (ha : Meets P takes Γ a σ)
    (hf : Meets P takes Γ f (.function σ τ)) : Meets P takes Γ
      (.call τ Flat.dispatcher (.tuple (.tuple [σ, .function σ τ]) [a, f])) τ := by
  refine ⟨rfl, fun hρ hbs hw hQ => ?_⟩
  rw [termWeight] at hw
  have hpair := meets_tuple (.cons ha (.cons hf .nil))
  refine hpair.pre hρ hbs (by omega) fun w hw hinhabits => ⟨kinds_cells hinhabits, ?_⟩
  cases hw with
  | tuple hes =>
    cases hes with
    | cons haw hrest =>
      cases hrest with
      | cons hfw hnil =>
        cases hnil
        cases hinhabits with
        | tuple hall =>
          cases hall with
          | cons hσ hrest =>
            cases hrest with
            | cons hclosure _ =>
              obtain ⟨tag, captured, name, rfl, hname⟩ := exists_body_of_inhabits hclosure
              refine callPre_of_gives (.dispatcher hname hσ hclosure) (fun h => nomatch h)
                fun r hr => hQ r ?_
              exact .dispatch (.tuple (.cons haw (.cons hfw .nil))) hname hr

theorem tys_of_meets {Γ : List Ty} {ts : List Term} {τs : List Ty}
    (h : List.Forall₂ (Meets P takes Γ) ts τs) : ts.map Term.ty = τs := by
  induction h with
  | nil => rfl
  | cons ht _ ih => rw [List.map_cons, ht.ty, ih]

/-- The argument of a clause of a conditional has the types of the variables in scope. -/
theorem meets_argument (S : Bindings) : Meets P takes S.types S.argument (.tuple S.types) := by
  have hvars : ∀ (after before : List Binding), before ++ after = S.items →
      List.Forall₂ (Meets P takes S.types)
        ((after.zipIdx before.length).map fun e => Term.var e.1.ty ⟨e.1.name, e.2⟩)
        (after.map (·.ty)) := by
    intro after
    induction after with
    | nil => exact fun _ _ => .nil
    | cons b after ih =>
      intro before heq
      have hb : S.types[before.length]? = some b.ty := by simp [Bindings.types, ← heq]
      have hrest := ih (before ++ [b]) (by rw [List.append_assoc]; exact heq)
      rw [List.length_append] at hrest
      exact .cons (meets_var hb) hrest
  have hterms : S.vars.map (fun e => Term.var e.2 e.1) =
      S.items.zipIdx.map fun e => Term.var e.1.ty ⟨e.1.name, e.2⟩ := by
    rw [Bindings.vars, List.map_map]
    rfl
  have hall := hvars S.items [] rfl
  rw [List.length_nil, ← hterms, ← Bindings.types] at hall
  have htypes := tys_of_meets hall
  rw [Bindings.argument, Term.ofTuple, htypes]
  exact meets_tuple hall

theorem areQuiet_vars (l : List (Var × Ty)) : areQuiet (l.map fun e => .var e.2 e.1) = true := by
  induction l with
  | nil => rfl
  | cons e l ih => exact ih

theorem isQuiet_argument (S : Bindings) : isQuiet S.argument = true :=
  areQuiet_vars S.vars

/-- A clause of a conditional is called on the variables in scope. -/
theorem Gives.clause {S : Bindings} {name : DefName} {τ : Ty} {a : Term} {restore : Option Int32}
    (hclause : P.HasClause name S τ a restore) (ha : HasType P takes S.types a τ) {w : Value}
    (hw : Inhabits P takes w (.tuple S.types)) :
    Gives P takes name (cells w) τ restore (Runs P name w) := by
  rw [← S.ty_binder] at hw
  rw [← S.types_binder] at ha
  exact .function hclause ⟨rfl, rfl, S.wellTyped_binder, ha⟩ hw

theorem meets_branch {S : Bindings} {τ : Ty} {c a b : Term} {thenName elseName : DefName}
    (hc : Meets P takes S.types c (.scalar .bool)) (hthen : P.HasClause thenName S τ a (some 1))
    (ha : HasType P takes S.types a τ) (helse : P.HasClause elseName S τ b none)
    (hb : HasType P takes S.types b τ) :
    Meets P takes S.types (.branch τ c S.argument thenName elseName) τ := by
  refine ⟨rfl, fun hρ hbs hw hQ => ?_⟩
  rw [termWeight] at hw
  have hargument : Meets P takes S.types S.argument (.tuple S.types) := meets_argument S
  refine hc.pre hρ hbs (by omega) fun x hx hbool => ?_
  obtain ⟨l, rfl, hl⟩ := exists_of_inhabits_scalar hbool
  obtain ⟨d, rfl⟩ : ∃ d, l = .bool d := by
    cases l <;> cases hl
    exact ⟨_, rfl⟩
  refine ⟨_, if d then 1 else 0, rfl, by cases d <;> rfl, ?_⟩
  refine hargument.pre hρ hbs (by omega) fun w hw hσ => ⟨hargument.ty ▸ kinds_cells hσ, ?_, ?_⟩
  · intro hone
    rw [isQuiet_argument] at hone
    obtain rfl : d = true := by
      cases d
      · exact absurd hone (by decide)
      · rfl
    refine callPre_of_gives (.clause hthen ha hσ) (fun _ => ⟨1, rfl, by decide⟩)
      fun r hr => hQ r (.branch hx hw hr)
  · intro hone
    rw [isQuiet_argument] at hone
    obtain rfl : d = false := by
      cases d
      · rfl
      · exact absurd hone (by decide)
    exact callPre_of_gives (.clause helse hb hσ) (fun h => nomatch h)
      fun r hr => hQ r (.branch hx hw hr)

theorem meets_test {Γ : List Ty} {e : Term} {p : Pattern} {level : Nat} (hp : p.WellTyped level)
    (he : Meets P takes Γ e p.ty) :
    Meets P takes Γ (.test (.scalar .bool) e p) (.scalar .bool) := by
  refine ⟨rfl, fun hρ hbs hw hQ => ?_⟩
  rw [termWeight] at hw
  refine he.pre hρ hbs (by omega) fun w hw hσ => ?_
  exact testerPre_of_inhabits hp hσ fun b hb => hQ _ (.test hw hb) .literal

mutual

/-- The code of a well-typed term does on slots what its evaluation does on values. -/
theorem meets_of_hasType (hP : P.WellTyped takes) : ∀ {t : Term} {Γ : List Ty} {τ : Ty},
    HasType P takes Γ t τ → Meets P takes Γ t τ
  | .literal .., _, _, .literal => meets_literal _
  | .array _ _ es, _, _, .array hes =>
    meets_array hes (all_meet_of_hasType hP (l := es) hes)
  | .list _ es, _, _, .list hes => meets_list (all_meet_of_hasType hP (l := es) hes)
  | .compound _ fields, _, _, .compound hnodup hfields =>
    meets_compound hnodup (fields_meet_of_haveTypes hP (l := fields) hfields)
  | .tuple _ es, _, _, .tuple hes => meets_tuple (terms_meet_of_haveTypes hP (l := es) hes)
  | .closure .., _, _, .closure hcaptures hp hbody hb => meets_closure hcaptures hp hbody hb
  | .branch _ c _ _ _, _, _, .branch hc hthen ha helse hb =>
    meets_branch (meets_of_hasType hP (t := c) hc) hthen ha helse hb
  | .letIn _ _ i b, _, _, .letIn hdrops hp hi hb =>
    meets_letIn hdrops hp (meets_of_hasType hP (t := i) hi) (meets_of_hasType hP (t := b) hb)
  | .var .., _, _, .var hv => meets_var hv
  | .call _ _ a, _, _, .call hname htakes ha =>
    meets_call hP hname htakes (meets_of_hasType hP (t := a) ha)
  | .call _ _ (.tuple _ [a, f]), _, _, .apply ha hf =>
    meets_apply (meets_of_hasType hP (t := a) ha) (meets_of_hasType hP (t := f) hf)
  | .test _ e _, _, _, .test hp he => meets_test hp (meets_of_hasType hP (t := e) he)
  | .command .., _, _, .command hw => meets_command hw

theorem all_meet_of_hasType (hP : P.WellTyped takes) : ∀ {l : List Term} {Γ : List Ty} {σ : Ty},
    (∀ t ∈ l, HasType P takes Γ t σ) → ∀ t ∈ l, Meets P takes Γ t σ
  | [], _, _, _ => fun _ ht => nomatch ht
  | t :: ts, _, _, h => List.forall_mem_cons.2
    ⟨meets_of_hasType hP (t := t) (h t List.mem_cons_self),
    all_meet_of_hasType hP (l := ts) fun u hu => h u (List.mem_cons_of_mem _ hu)⟩

theorem terms_meet_of_haveTypes (hP : P.WellTyped takes) : ∀ {l : List Term} {Γ : List Ty}
    {τs : List Ty}, HaveTypes P takes Γ l τs → List.Forall₂ (Meets P takes Γ) l τs
  | [], _, _, .nil => .nil
  | t :: ts, _, _, .cons ht hts =>
    .cons (meets_of_hasType hP (t := t) ht) (terms_meet_of_haveTypes hP (l := ts) hts)

theorem fields_meet_of_haveTypes (hP : P.WellTyped takes) : ∀ {l : List (String × Term)}
    {Γ : List Ty} {τs : List (String × Ty)}, FieldsHaveTypes P takes Γ l τs →
    List.Forall₂ (fun f τ => f.1 = τ.1 ∧ Meets P takes Γ f.2 τ.2) l τs
  | [], _, _, .nil => .nil
  | (_, t) :: rest, _, _, .cons ht hrest =>
    .cons ⟨rfl, meets_of_hasType hP (t := t) ht⟩ (fields_meet_of_haveTypes hP (l := rest) hrest)

end

/-! ## Functions -/

/-- The code of a function gives the cells of what running the function gives. -/
theorem functionPre_of_wellTyped (hP : P.WellTyped takes) {name : DefName} {f : Flat.Function}
    (hf : P.function? name = some f) (hfun : f.WellTyped P takes) {w : Value}
    (hw : Inhabits P takes w f.binder.ty) (hweight : functionWeight f < 2 ^ 31) :
    functionPre (runCallees P takes) f (cells w) fun rs =>
      ∃ r, rs = cells r ∧ Runs P name w r ∧ Inhabits P takes r f.result := by
  rw [functionWeight] at hweight
  refine ⟨hfun.drops, hfun.binderDrops, kinds_cells hw, ?_⟩
  refine binderPre_of_inhabits hfun.binder hw fun ws copied kept hbind hws hbinds => ?_
  refine (meets_of_hasType hP hfun.body).pre hws hbinds (by omega) fun r hr hτ => ?_
  exact ⟨kinds_cells hτ, r, rfl, .function hf hbind hr, hτ⟩

/-- The binder of a body takes the captured variables out of the slot of the closure, although the
record there has the tag beside them. -/
theorem binderPre_closureBinder {Γ : List Ty} {p : Pattern} {captures : List Capture}
    (hcaptures : Capturable Γ captures) (hp : p.WellTyped 0) {w : Value} {tag : Nat}
    {captured : List (String × Value)} (hw : Inhabits P takes w p.ty)
    (hcaptured : FieldsInhabit P takes captured (captures.map fun c => (c.v.name, c.ty)))
    {Q : Bound → Bound → Prop} (hQ : ∀ ws copied kept,
      (closureBinder p captures).bind? (.tuple [w, .compound captured]) = some ws →
      AllInhabit P takes ws (p.types ++ captures.map (·.ty)) → Carries 0 ws (copied ++ kept) →
        Q copied kept) :
    binderPre (closureBinder p captures) (cells (.tuple [w, .closure tag captured])) Q := by
  have hlen : p.ty.erase.length = (cells w).length := by rw [← kinds_cells hw, List.length_map]
  have hentry : ∀ key σ, Keyed.find? key (captures.map fun c => (c.v.name, c.ty)) = some σ →
      ∃ v, Keyed.find? key captured = some v ∧ Inhabits P takes v σ ∧
        Keyed.find? key (("_", .int (Int32.ofNat tag)) :: fieldSlots captured) =
          some (onlySlot (cells v)) := by
    intro key σ hσ
    obtain ⟨v, hv, hvσ⟩ := hcaptured.find? hσ
    have hne : "_" ≠ key := by
      rintro rfl
      refine hcaptures.noTag ?_
      obtain ⟨c, hc, heq⟩ := List.mem_map.1 (Keyed.mem_of_find? hσ)
      exact List.mem_map.2 ⟨c, hc, congrArg Prod.fst heq⟩
    exact ⟨v, hv, hvσ, by rw [Keyed.find?, if_neg hne, find?_fieldSlots, hv]; rfl⟩
  rw [cells_pair, closureBinder, Pattern.ofTuple, binderPre, bindersPre, hlen, List.drop_left,
    List.take_left]
  refine ⟨rfl, _, rfl, fieldBindersPre_of_inhabit
    (Flat.wellTyped_captureFields hcaptures.find? p.types.length) hentry
    fun later copied hlater hlaters hbinds => ?_⟩
  refine binderPre_of_inhabits hp hw fun ws copied' kept' hbind hws hbinds' => ?_
  rw [Flat.typesOfFields_captureFields] at hlaters
  refine hQ (ws ++ later) _ _ ?_ (hws.append hlaters) (hbinds'.apart ?_)
  · simp [closureBinder, Pattern.ofTuple, Pattern.bind?, Pattern.bindAll?, hbind, hlater]
  · rw [Nat.zero_add, hws.length_eq, List.append_nil]
    exact (List.append_nil copied).symm ▸ hbinds

/-- The code of the body of a local function gives the cells of what running it gives. -/
theorem functionPre_of_body (hP : P.WellTyped takes) {Γ : List Ty} {tag : Nat} {name : DefName}
    {p : Pattern} {captures : List Capture} {τ : Ty} {b : Term} {w : Value}
    {captured : List (String × Value)} (hcaptures : Capturable Γ captures) (hp : p.WellTyped 0)
    (hf : P.function? name =
      some ⟨[], name, closureBinder p captures, τ, b, some (Int32.ofNat tag)⟩)
    (hb : HasType P takes (p.types ++ captures.map (·.ty)) b τ) (hw : Inhabits P takes w p.ty)
    (hcaptured : FieldsInhabit P takes captured (captures.map fun c => (c.v.name, c.ty)))
    (hweight : functionWeight ⟨[], name, closureBinder p captures, τ, b,
      some (Int32.ofNat tag)⟩ < 2 ^ 31) :
    functionPre (runCallees P takes)
      ⟨[], name, closureBinder p captures, τ, b, some (Int32.ofNat tag)⟩
      (cells (.tuple [w, .closure tag captured])) fun rs =>
        ∃ r, rs = cells r ∧ Runs P name (.tuple [w, .compound captured]) r ∧
          Inhabits P takes r τ := by
  have hbody : termWeight b < 2 ^ 31 := Nat.lt_of_le_of_lt (Nat.le_add_left _ _) hweight
  refine ⟨rfl, rfl, ?_, ?_⟩
  · rw [cells_pair, List.map_append, kinds_cells hw]
    rfl
  · refine binderPre_closureBinder hcaptures hp hw hcaptured
      fun ws copied kept hbind hws hbinds => ?_
    refine (meets_of_hasType hP hb).pre hws hbinds hbody fun r hr hτ => ?_
    exact ⟨kinds_cells hτ, r, rfl, .function hf hbind hr, hτ⟩

end

end Stagecraft.Emit
