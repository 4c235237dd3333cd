import Stagecraft.Proofs.FlatTyping
import Stagecraft.Proofs.Shapes

/-!
# Values on the stacks

`cells` says which slots a value of the flat language takes and what they hold. On values of the
types of the nodes, binders and tests on slots do what they do on values: `binderPre_of_inhabits`
and `testerPre_of_inhabits` meet their preconditions if what follows holds of the parts of the value
and of the answer of the pattern.
-/

namespace Stagecraft.Emit

open Target (StackKind Nbt ScoreRange)
open Flat (Ty Pattern Value Inhabits AllInhabit FieldsInhabit scalarKind arrayKind)

/-! ## Cells of values -/

/-- What the slot of a value of one slot holds. -/
def onlySlot : Cells → Nbt
  | [(_, v)] => v
  | _ => default

/-- An array of numbers that are given as data. -/
def arrayOf (kind : ArrayKind) (vs : List Nbt) : Nbt :=
  match kind with
  | .byte => .byteArray (vs.map fun
      | .byte n => n
      | _ => 0)
  | .int => .intArray (vs.map fun
      | .int n => n
      | _ => 0)
  | .long => .longArray (vs.map fun
      | .long n => n
      | _ => 0)

mutual

/-- The slots of a value with what they hold, in the order they are pushed. Boxes have none. -/
def cells : Value → Cells
  | .literal l => [(kindOf (.ofLiteral l), .ofLiteral l)]
  | .array kind ws => [(arrayKind kind, arrayOf kind (slotsOf ws))]
  | .list ws => [(.list, .list (slotsOf ws))]
  | .compound fields => [(.compound, .compound (fieldSlots fields))]
  | .ref _ => []
  | .tuple ws => cellsAll ws
  | .closure tag captured =>
    [(.compound, .compound (("_", .int (Int32.ofNat tag)) :: fieldSlots captured))]

/-- The slots of several values, one after another. -/
def cellsAll : List Value → Cells
  | [] => []
  | w :: ws => cells w ++ cellsAll ws

/-- What the slots of values of one slot each hold. -/
def slotsOf : List Value → List Nbt
  | [] => []
  | w :: ws => onlySlot (cells w) :: slotsOf ws

/-- What the slots of the fields of a record hold. -/
def fieldSlots : List (String × Value) → List (String × Nbt)
  | [] => []
  | (key, w) :: rest => (key, onlySlot (cells w)) :: fieldSlots rest

end

theorem cells_pair (v w : Value) : cells (.tuple [v, w]) = cells v ++ cells w := by
  simp [cells, cellsAll]

theorem length_slotsOf (ws : List Value) : (slotsOf ws).length = ws.length := by
  induction ws with
  | nil => rfl
  | cons w ws ih => rw [slotsOf, List.length_cons, List.length_cons, ih]

theorem slotsOf_append (vs ws : List Value) : slotsOf (vs ++ ws) = slotsOf vs ++ slotsOf ws := by
  induction vs with
  | nil => rfl
  | cons v vs ih => rw [List.cons_append, slotsOf, slotsOf, ih, List.cons_append]

theorem fieldSlots_append (es fs : List (String × Value)) :
    fieldSlots (es ++ fs) = fieldSlots es ++ fieldSlots fs := by
  induction es with
  | nil => rfl
  | cons e es ih => rw [List.cons_append, fieldSlots, fieldSlots, ih, List.cons_append]

theorem keys_fieldSlots (fields : List (String × Value)) :
    Keyed.keys (fieldSlots fields) = Keyed.keys fields := by
  induction fields with
  | nil => rfl
  | cons f fields ih => exact congrArg (f.1 :: ·) ih

theorem find?_fieldSlots (key : String) (fields : List (String × Value)) :
    Keyed.find? key (fieldSlots fields) =
      (Keyed.find? key fields).map fun w => onlySlot (cells w) := by
  induction fields with
  | nil => rfl
  | cons f fields ih =>
    rw [fieldSlots, Keyed.find?, Keyed.find?, ih]
    split <;> rfl

theorem kindOf_ne_endTag (v : Nbt) : kindOf v ≠ .endTag := by
  cases v <;> simp [kindOf]

theorem kindOf_ofLiteral (l : Literal) : kindOf (.ofLiteral l) = scalarKind l.scalar := by
  cases l <;> rfl

section

variable {P : Flat.Program} {takes : DefName → Ty → Ty → Prop}

mutual

/-- The slots of a value are those of its type. -/
theorem kinds_cells : ∀ {w : Value} {τ : Ty}, Inhabits P takes w τ →
    (cells w).map (·.1) = τ.erase
  | _, _, .literal => by rw [cells, Ty.erase, ← kindOf_ofLiteral]; rfl
  | _, _, .array _ => rfl
  | _, _, .list _ => rfl
  | _, _, .compound .. => rfl
  | _, _, .tuple h => by
    rw [cells, Ty.erase]
    exact kinds_cellsAll h
  | _, _, .closure .. => rfl

theorem kinds_cellsAll : ∀ {ws : List Value} {τs : List Ty}, AllInhabit P takes ws τs →
    (cellsAll ws).map (·.1) = Ty.eraseAll τs
  | _, _, .nil => rfl
  | _, _, .cons h hs => by
    rw [cellsAll, Ty.eraseAll, List.map_append, kinds_cells h, kinds_cellsAll hs]

end

mutual

/-- Values have no slots without content. -/
theorem ne_endTag_of_inhabits : ∀ {w : Value} {τ : Ty}, Inhabits P takes w τ →
    ∀ k ∈ τ.erase, k ≠ .endTag
  | _, _, .literal, k, hk => by
    rw [Ty.erase, List.mem_singleton, ← kindOf_ofLiteral] at hk
    exact hk ▸ kindOf_ne_endTag _
  | _, .array kind, .array _, k, hk => by
    rw [Ty.erase, List.mem_singleton] at hk
    subst hk
    cases kind <;> simp [arrayKind]
  | _, _, .list _, k, hk | _, _, .compound .., k, hk | _, _, .closure .., k, hk => by
    rw [Ty.erase, List.mem_singleton] at hk
    subst hk
    decide
  | _, _, .tuple h, k, hk => by
    rw [Ty.erase] at hk
    exact ne_endTag_of_allInhabit h k hk

theorem ne_endTag_of_allInhabit : ∀ {ws : List Value} {τs : List Ty}, AllInhabit P takes ws τs →
    ∀ k ∈ Ty.eraseAll τs, k ≠ .endTag
  | _, _, .nil, k, hk => nomatch hk
  | _, _, .cons h hs, k, hk => by
    rw [Ty.eraseAll, List.mem_append] at hk
    rcases hk with hk | hk
    · exact ne_endTag_of_inhabits h k hk
    · exact ne_endTag_of_allInhabit hs k hk

end

/-- A value of a type of one slot has one. -/
theorem cells_of_erase {w : Value} {τ : Ty} {k : StackKind} (h : Inhabits P takes w τ)
    (hk : τ.erase = [k]) : cells w = [(k, onlySlot (cells w))] := by
  obtain ⟨⟨j, v⟩, hw, rfl⟩ := List.map_eq_singleton_iff.1 ((kinds_cells h).trans hk)
  rw [hw]
  rfl

end

/-! ## Variables -/

/-- The variables of an environment from a level on have the cells of their values. -/
def Carries (level : Nat) (ws : List Value) (bs : Bound) : Prop :=
  ∀ i, Keyed.find? i bs = if level ≤ i then (ws[i - level]?).map cells else none

theorem carries_nil (level : Nat) : Carries level [] [] := fun i => by
  rw [Keyed.find?, List.getElem?_nil, Option.map_none, ite_self]

theorem carries_singleton (level : Nat) (w : Value) : Carries level [w] [(level, cells w)] := by
  intro i
  rw [Keyed.find?, Keyed.find?]
  by_cases h : level = i
  · subst h
    simp
  · rw [if_neg h]
    split
    · rw [List.getElem?_eq_none (by rw [List.length_singleton]; omega), Option.map_none]
    · rfl

/-- More variables are bound after those of an environment. -/
theorem Carries.append {level : Nat} {vs ws : List Value} {ρ bs : Bound} (h : Carries level vs ρ)
    (h' : Carries (level + vs.length) ws bs) : Carries level (vs ++ ws) (bs ++ ρ) := by
  intro i
  rw [Keyed.find?_append, h i, h' i]
  by_cases hlevel : level ≤ i
  · rw [if_pos hlevel, if_pos hlevel, List.getElem?_append]
    by_cases hlater : level + vs.length ≤ i
    · rw [if_pos hlater, if_neg (by omega), List.getElem?_eq_none (l := vs) (by omega),
        Option.map_none, Option.or_none, Nat.sub_sub]
    · rw [if_neg hlater, if_pos (by omega), Option.none_or]
  · rw [if_neg hlevel, if_neg hlevel, if_neg (by omega), Option.none_or]

/-- Variables that are copied and those that stay in their place can be listed apart. -/
theorem Carries.apart {level : Nat} {vs ws : List Value} {copied kept copied' kept' : Bound}
    (h : Carries level vs (copied' ++ kept'))
    (h' : Carries (level + vs.length) ws (copied ++ kept)) :
    Carries level (vs ++ ws) ((copied' ++ copied) ++ (kept ++ kept')) := by
  intro i
  rw [← h.append h' i]
  simp only [Carries, Keyed.find?_append] at h h' ⊢
  have hi := h i
  have hi' := h' i
  by_cases hlater : level + vs.length ≤ i
  · rw [List.getElem?_eq_none (by omega), Option.map_none, ite_self, Option.or_eq_none_iff] at hi
    rw [hi.1, hi.2]
    simp only [Option.none_or, Option.or_none]
  · rw [if_neg hlater, Option.or_eq_none_iff] at hi'
    rw [hi'.1, hi'.2]
    simp only [Option.none_or, Option.or_none]

/-! ## Binders and tests -/

section

variable {P : Flat.Program} {takes : DefName → Ty → Ty → Prop}

mutual

/-- A binder gives its variables the parts of the value, and they have the cells of those. -/
theorem binderPre_of_inhabits : ∀ {p : Pattern} {level : Nat} {w : Value}
    {Q : Bound → Bound → Prop}, p.WellTyped level → Inhabits P takes w p.ty →
    (∀ ws copied kept, p.bind? w = some ws → AllInhabit P takes ws p.types →
      Carries level ws (copied ++ kept) → Q copied kept) → binderPre p (cells w) Q
  | .var info v, _, w, _, hp, hw, hQ => by
    have hlevel : v.level = _ := hp
    exact ⟨kinds_cells hw, hQ [w] [] _ rfl (.cons hw .nil) (hlevel ▸ carries_singleton _ w)⟩
  | .int info _, level, w, _, hp, hw, hQ | .range info _ _, level, w, _, hp, hw, hQ => by
    have hty : info.ty = .int := hp
    refine ⟨(kinds_cells hw).trans ?_, hQ [] [] [] rfl .nil (carries_nil level)⟩
    change info.ty.erase = _
    rw [hty]
    rfl
  | .wildcard _, level, w, _, _, hw, hQ =>
    ⟨kinds_cells hw, hQ [] [] [] rfl .nil (carries_nil level)⟩
  | .tuple info ps, level, w, _, ⟨hty, hps⟩, hw, hQ => by
    change Inhabits P takes w info.ty at hw
    rw [hty] at hw
    cases hw with
    | tuple hws =>
      have hlen := hws.length_eq
      rw [List.length_map] at hlen
      rw [cells]
      refine bindersPre_of_inhabit (l := ps) hps hws fun ws copied kept hbind => ?_
      exact hQ ws copied kept (by rw [Pattern.bind?, if_pos hlen.symm, hbind])
  | .compound info fields, level, w, _, ⟨τs, hty, hfields⟩, hw, hQ => by
    change Inhabits P takes w info.ty at hw
    rw [hty] at hw
    cases hw with
    | @compound es _ hnodup hes =>
      have hentry : ∀ key σ, Keyed.find? key τs = some σ → ∃ v, Keyed.find? key es = some v ∧
          Inhabits P takes v σ ∧ Keyed.find? key (fieldSlots es) = some (onlySlot (cells v)) := by
        intro key σ hσ
        obtain ⟨v, hv, hvσ⟩ := hes.find? hσ
        exact ⟨v, hv, hvσ, by rw [find?_fieldSlots, hv]; rfl⟩
      rw [cells]
      refine ⟨_, rfl, fieldBindersPre_of_inhabit (l := fields) hfields hentry ?_⟩
      exact fun ws copied hbind hws hbinds =>
        hQ ws copied [] hbind hws (by rwa [List.append_nil])
  | .list .., _, _, _, _, _, _ => trivial

/-- As `binderPre_of_inhabits`, for several values. -/
theorem bindersPre_of_inhabit : ∀ {l : List Pattern} {level : Nat} {vs : List Value}
    {Q : Bound → Bound → Prop}, Pattern.AllWellTyped level l →
    AllInhabit P takes vs (l.map Pattern.ty) → (∀ ws copied kept, Pattern.bindAll? l vs = some ws →
      AllInhabit P takes ws (Pattern.typesOfAll l) → Carries level ws (copied ++ kept) →
        Q copied kept) → bindersPre l (cellsAll vs) Q
  | [], level, _, _, _, .nil, hQ => ⟨rfl, hQ [] [] [] rfl .nil (carries_nil level)⟩
  | p :: ps, level, v :: vs, _, ⟨hp, hps⟩, .cons hv hvs, hQ => by
    have hlen : p.ty.erase.length = (cells v).length := by
      rw [← kinds_cells hv, List.length_map]
    rw [bindersPre, cellsAll, hlen, List.drop_left, List.take_left]
    refine bindersPre_of_inhabit (l := ps) hps hvs fun ws copied kept hbind hws hbinds => ?_
    refine binderPre_of_inhabits (p := p) hp hv fun ws' copied' kept' hbind' hws' hbinds' => ?_
    refine hQ (ws' ++ ws) _ _ ?_ (hws'.append hws) (hbinds'.apart (hws'.length_eq ▸ hbinds))
    rw [Pattern.bindAll?, hbind', hbind]
    rfl

/-- As `binderPre_of_inhabits`, for the fields of a record. -/
theorem fieldBindersPre_of_inhabit : ∀ {l : List (String × Pattern)} {level : Nat}
    {τs : List (String × Ty)} {fields : List (String × Value)} {entries : List (String × Nbt)}
    {Q : Bound → Prop}, Pattern.FieldsWellTyped τs level l →
    (∀ key σ, Keyed.find? key τs = some σ → ∃ w, Keyed.find? key fields = some w ∧
      Inhabits P takes w σ ∧ Keyed.find? key entries = some (onlySlot (cells w))) →
    (∀ ws copied, Pattern.bindFields? fields l = some ws →
      AllInhabit P takes ws (Pattern.typesOfFields l) → Carries level ws copied → Q copied) →
    fieldBindersPre l entries Q
  | [], level, _, _, _, _, _, _, hQ => hQ [] [] rfl .nil (carries_nil level)
  | (key, p) :: rest, level, _, fields, _, _, ⟨hkey, hp, hrest⟩, hfields, hQ => by
    intro k hk
    obtain ⟨w, hw, hinhabits, hentry⟩ := hfields key p.ty hkey
    refine ⟨_, hentry, ?_⟩
    rw [← cells_of_erase hinhabits hk]
    refine binderPre_of_inhabits (p := p) hp hinhabits fun ws copied kept hbind hws hbinds => ?_
    refine fieldBindersPre_of_inhabit (l := rest) hrest hfields
      fun ws' later hbind' hws' hlater => ?_
    refine hQ (ws ++ ws') _ ?_ (hws.append hws') (hbinds.append (hws.length_eq ▸ hlater))
    simp only [Pattern.bindFields?, hw, Option.bind_eq_bind, Option.bind_some, hbind, hbind']
    rfl

end

theorem rangePre_of_cells {range : ScoreRange} {n : Int32} {Q : Bool → Prop}
    (hQ : Q (range.contains n)) : rangePre range (cells (.literal (.int n))) Q :=
  ⟨_, n, rfl, rfl, hQ⟩

theorem exists_int {w : Value} {τ : Ty} (hτ : τ = .int) (h : Inhabits P takes w τ) :
    ∃ n, w = .literal (.int n) := by
  cases h with
  | @literal l =>
    cases l <;> cases hτ
    exact ⟨_, rfl⟩
  | _ => cases hτ

mutual

/-- A test answers as on the value. -/
theorem testerPre_of_inhabits : ∀ {p : Pattern} {level : Nat} {w : Value} {Q : Bool → Prop},
    p.WellTyped level → Inhabits P takes w p.ty → (∀ b, p.matches? w = some b → Q b) →
    testerPre p (cells w) Q
  | .int info m, _, w, _, hp, hw, hQ => by
    obtain ⟨n, rfl⟩ := exists_int (τ := info.ty) hp hw
    refine rangePre_of_cells (hQ _ ?_)
    have hsame : (ScoreRange.exactly m).contains n = (n == m) := Bool.eq_iff_iff.2
      ((ScoreRange.contains_exactly m n).trans (eq_comm.trans beq_iff_eq.symm))
    rw [Pattern.matches?, hsame]
  | .range info min max, _, w, _, hp, hw, hQ => by
    obtain ⟨n, rfl⟩ := exists_int (τ := info.ty) hp hw
    refine rangePre_of_cells (hQ _ ?_)
    simp [Pattern.matches?, ScoreRange.contains, ScoreRange.between]
  | .tuple info ps, _, w, _, ⟨hty, hps⟩, hw, hQ => by
    change Inhabits P takes w info.ty at hw
    rw [hty] at hw
    cases hw with
    | tuple hws =>
      have hlen := hws.length_eq
      rw [List.length_map] at hlen
      rw [cells]
      refine testersPre_of_inhabit (l := ps) hps hws fun b hb => ?_
      exact hQ b (by rw [Pattern.matches?, if_pos hlen.symm, hb])
  | .var .., _, w, _, _, hw, hQ | .wildcard _, _, w, _, _, hw, hQ => ⟨kinds_cells hw, hQ true rfl⟩
  | .list .., _, _, _, _, _, _ | .compound .., _, _, _, _, _, _ => trivial

/-- As `testerPre_of_inhabits`, for several values. -/
theorem testersPre_of_inhabit : ∀ {l : List Pattern} {level : Nat} {vs : List Value}
    {Q : Bool → Prop}, Pattern.AllWellTyped level l → AllInhabit P takes vs (l.map Pattern.ty) →
    (∀ b, Pattern.matchesAll? l vs = some b → Q b) → testersPre l (cellsAll vs) Q
  | [], _, _, _, _, .nil, hQ => ⟨rfl, hQ true rfl⟩
  | p :: ps, level, v :: vs, _, ⟨hp, hps⟩, .cons hv hvs, hQ => by
    have hlen : p.ty.erase.length = (cells v).length := by
      rw [← kinds_cells hv, List.length_map]
    rw [testersPre, cellsAll, hlen, List.drop_left, List.take_left]
    refine testersPre_of_inhabit (l := ps) hps hvs fun later hlater => ?_
    refine testerPre_of_inhabits (p := p) hp hv fun first hfirst => hQ _ ?_
    rw [Pattern.matchesAll?, hfirst, hlater, Bool.and_comm]
    rfl

end

end

end Stagecraft.Emit
