import Stagecraft.Proofs.CellEvaluation
import Stagecraft.Proofs.StackDiscipline

/-!
# Aggregates built in place

A data term is made of literals, arrays, lists, records, tuples and variables alone. `data?` says
what it denotes, without stacks: the data of each slot of its value. The code for such a term pushes
an empty shell, computes each element on top of the stacks, moves it into the shell and drops it;
`pushes_value` says that what is left in the end is one slot with the value that the term denotes,
and every other slot as it was.

The proof is about the weakest precondition of data terms (`termPre_of_isDatum`): it is enough that
the condition holds of the cells of the denoted value. Of the elements of an array only those that
are no constants are computed; where they go, the shell has something that stands for them.
-/

namespace Stagecraft.Emit

open Target (StackKind PerKind Nbt)
open Machine (State Program Calls run leads ends_of_leads)
open Flat (Ty Term scalarKind arrayKind)
open Emit.Frame (held ofBindings)

/-! ## Data terms and what they denote -/

/-- The kinds of the slots of the variables in scope. -/
def Bound.kinds (ρ : Bound) : List (Nat × List StackKind) := ρ.map fun b => (b.1, b.2.map (·.1))

/-- Every slot has data of the kind of its stack. -/
def Cells.Hold (cs : Cells) : Prop := ∀ c ∈ cs, c.1 = .endTag ∨ kindOf c.2 = c.1

/-- The slots of every variable have data of their kinds. -/
def Bound.Hold (ρ : Bound) : Prop := ∀ b ∈ ρ, Cells.Hold b.2

section

variable (Γ : List (Nat × List StackKind))

mutual

/-- Whether a term is a data term whose nodes have the types that their constructors determine, as
far as slots go: the type of a node is laid out as what its constructor pushes, the elements of an
array have the kind of its numbers, and a record has every key once. -/
def isDatum : Term → Bool
  | .literal ty l => ty.erase == [kindOf (.ofLiteral l)]
  | .array ty kind es => ty.erase == [arrayKind kind] && areNumbers (scalarKind kind.scalar) es
  | .list ty es => ty.erase == [.list] && areData es
  | .compound ty fields =>
    ty.erase == [.compound] && decide (fields.map (·.1)).Nodup && fieldsAreData fields
  | .tuple ty es => ty.erase == (es.flatMap fun e => e.ty.erase) && areData es
  | .var ty v => Keyed.find? v.level Γ == some ty.erase
  | .ref .. | .closure .. | .branch .. | .letIn .. | .call .. | .test .. | .command .. => false

/-- Whether several terms are data terms. -/
def areData : List Term → Bool
  | [] => true
  | t :: ts => isDatum t && areData ts

/-- Whether several terms are data terms, each in one slot of a kind. -/
def areNumbers (k : StackKind) : List Term → Bool
  | [] => true
  | t :: ts => isDatum t && t.ty.erase == [k] && areNumbers k ts

/-- Whether the fields of a record are data terms. -/
def fieldsAreData : List (String × Term) → Bool
  | [] => true
  | (_, t) :: rest => isDatum t && fieldsAreData rest

end

end

section

variable (ρ : Bound)

mutual

/-- What a data term denotes where the variables have the cells `ρ`: the data in the slots of its
value, in order. -/
def data? : Term → Option (List Nbt)
  | .literal _ l => some [.ofLiteral l]
  | .array _ kind es => (elements? es).bind fun vs =>
    if vs.all fun v => kindOf v == scalarKind kind.scalar then some [arrayOf kind vs] else none
  | .list _ es => (elements? es).map fun vs => [.list vs]
  | .compound _ fields => (fields? fields).map fun vs => [.compound vs]
  | .tuple _ es => dataAll? es
  | .var _ v => (Keyed.find? v.level ρ).map fun cs => cs.map (·.2)
  | .ref .. | .closure .. | .branch .. | .letIn .. | .call .. | .test .. | .command .. => none

/-- The data of several terms, one after another. -/
def dataAll? : List Term → Option (List Nbt)
  | [] => some []
  | t :: ts => (data? t).bind fun vs => (dataAll? ts).map (vs ++ ·)

/-- The data of several terms of one slot each. -/
def elements? : List Term → Option (List Nbt)
  | [] => some []
  | t :: ts =>
    match data? t with
    | some [v] => (elements? ts).map (v :: ·)
    | _ => none

/-- The data of the fields of a record, each under its key. -/
def fields? : List (String × Term) → Option (List (String × Nbt))
  | [] => some []
  | (key, t) :: rest =>
    match data? t with
    | some [v] => (fields? rest).map ((key, v) :: ·)
    | _ => none

end

end

/-! ## Preconditions of data terms -/

theorem Cells.Hold.append {cs ds : Cells} (h : cs.Hold) (h' : ds.Hold) : (cs ++ ds).Hold :=
  fun c hc => (List.mem_append.1 hc).elim (h c) (h' c)

theorem Cells.hold_singleton {k : StackKind} {v : Nbt} (h : kindOf v = k) :
    Cells.Hold [(k, v)] := by
  intro c hc
  rw [List.mem_singleton] at hc
  subst hc
  exact .inr h

theorem scalarKind_ne_endTag (s : Scalar) : scalarKind s ≠ .endTag := by
  cases s <;> decide

/-- The variables in scope are found with their kinds. -/
theorem Bound.exists_of_kinds {ρ : Bound} {level : Nat} {ks : List StackKind}
    (h : Keyed.find? level ρ.kinds = some ks) :
    ∃ cs, (level, cs) ∈ ρ ∧ Keyed.find? level ρ = some cs ∧ cs.map (·.1) = ks := by
  induction ρ with
  | nil => cases h
  | cons b ρ ih =>
    rw [Bound.kinds, List.map_cons, Keyed.find?] at h
    rw [Keyed.find?]
    split at h
    · next hb =>
      cases h
      exact ⟨b.2, hb ▸ List.mem_cons_self, if_pos hb, rfl⟩
    · next hb =>
      obtain ⟨cs, hmem, hfind, hks⟩ := ih h
      exact ⟨cs, List.mem_cons_of_mem _ hmem, by rw [if_neg hb, hfind], hks⟩

section

variable {callees : Callees} {ρ : Bound}

mutual

/-- Code for a data term meets every condition that holds of the cells of what it denotes. -/
theorem termPre_of_isDatum (hρ : ρ.Hold) : ∀ {t : Term} {Q : Cells → Prop},
    isDatum ρ.kinds t → termWeight t < 2 ^ 31 →
    (∀ cs : Cells, data? ρ t = some (cs.map (·.2)) → cs.map (·.1) = t.ty.erase → cs.Hold → Q cs) →
    termPre callees t ρ Q
  | .literal ty l, _, h, _, hQ => by
    rw [isDatum, beq_iff_eq] at h
    intro k hk
    obtain rfl : kindOf (.ofLiteral l) = k := by simpa using h.symm.trans hk
    exact hQ [_] rfl h.symm (Cells.hold_singleton rfl)
  | .array ty kind es, _, h, hw, hQ => by
    rw [isDatum, Bool.and_eq_true, beq_iff_eq] at h
    obtain ⟨hty, hes⟩ := h
    rw [termWeight] at hw
    intro k hk
    obtain rfl : arrayKind kind = k := by simpa using hty.symm.trans hk
    rw [arrayShell_eq]
    refine @elementsPre_of_areNumbers hρ es kind [] _ hes (by omega)
      (by simp only [List.length_nil]; omega) fun ws hws hkinds => ?_
    refine hQ [_] ?_ hty.symm (Cells.hold_singleton (by cases kind <;> rfl))
    have hall : (ws.all fun v => kindOf v == scalarKind kind.scalar) = true :=
      List.all_eq_true.2 fun v hv => beq_iff_eq.2 (hkinds v hv)
    rw [data?, hws, Option.bind_some, if_pos hall]
    rfl
  | .list ty es, _, h, hw, hQ => by
    rw [isDatum, Bool.and_eq_true, beq_iff_eq] at h
    obtain ⟨hty, hes⟩ := h
    rw [termWeight] at hw
    refine listPre_of_areData hρ hes (by omega) fun ws hws => ?_
    refine hQ [_] ?_ hty.symm (Cells.hold_singleton rfl)
    rw [data?, hws]
    rfl
  | .compound ty fields, _, h, hw, hQ => by
    simp only [isDatum, Bool.and_eq_true, beq_iff_eq, decide_eq_true_eq] at h
    obtain ⟨⟨hty, hkeys⟩, hfields⟩ := h
    rw [termWeight] at hw
    refine @fieldsPre_of_areData hρ fields [] _ hfields (by omega) hkeys fun ws hws => ?_
    refine hQ [_] ?_ hty.symm (Cells.hold_singleton rfl)
    rw [data?, hws]
    rfl
  | .tuple ty es, _, h, hw, hQ => by
    rw [isDatum, Bool.and_eq_true, beq_iff_eq] at h
    obtain ⟨hty, hes⟩ := h
    refine termsPre_of_areData hρ hes hw fun cs hcs hkinds hhold => ?_
    exact hQ cs hcs (hkinds.trans hty.symm) hhold
  | .var ty v, _, h, _, hQ => by
    rw [isDatum, beq_iff_eq] at h
    obtain ⟨cs, hmem, hfind, hkinds⟩ := Bound.exists_of_kinds h
    refine ⟨cs, hfind, hkinds, hQ cs ?_ hkinds (hρ _ hmem)⟩
    rw [data?, hfind, Option.map_some]

theorem termsPre_of_areData (hρ : ρ.Hold) : ∀ {ts : List Term} {Q : Cells → Prop},
    areData ρ.kinds ts → termsWeight ts < 2 ^ 31 →
    (∀ cs : Cells, dataAll? ρ ts = some (cs.map (·.2)) →
      cs.map (·.1) = (ts.flatMap fun t => t.ty.erase) → cs.Hold → Q cs) → termsPre callees ts ρ Q
  | [], _, _, _, hQ => hQ [] rfl rfl fun _ hc => nomatch hc
  | t :: ts, _, h, hw, hQ => by
    rw [areData, Bool.and_eq_true] at h
    rw [termsWeight] at hw
    refine termPre_of_isDatum hρ h.1 (by omega) fun cs hcs hkinds hhold => ?_
    refine termsPre_of_areData hρ h.2 (by omega) fun ds hds hkinds' hhold' => ?_
    refine hQ (cs ++ ds) ?_ ?_ (hhold.append hhold')
    · rw [dataAll?, hcs, hds, List.map_append]
      rfl
    · rw [List.map_append, hkinds, hkinds', List.flatMap_cons]

/-- The elements of an array from an index on, `vs` being those before. -/
theorem elementsPre_of_areNumbers (hρ : ρ.Hold) : ∀ {ts : List Term} {kind : ArrayKind}
    {vs : List Nbt} {Q : Nbt → Prop}, areNumbers ρ.kinds (scalarKind kind.scalar) ts →
    termsWeight ts < 2 ^ 31 → vs.length + ts.length < 2 ^ 31 →
    (∀ ws, elements? ρ ts = some ws → (∀ w ∈ ws, kindOf w = scalarKind kind.scalar) →
      Q (arrayOf kind (vs ++ ws))) →
    elementsPre callees (arrayKind kind) kind vs.length ts ρ
      (arrayOf kind (vs ++ ts.map (constantSlot kind))) Q
  | [], _, _, _, _, _, _, hQ => hQ [] rfl fun _ hw => nomatch hw
  | t :: ts, kind, vs, Q, h, hw, hsize, hQ => by
    simp only [areNumbers, Bool.and_eq_true, beq_iff_eq] at h
    obtain ⟨⟨ht, hty⟩, hts⟩ := h
    rw [termsWeight] at hw
    rw [List.length_cons] at hsize
    -- once the element is in place, the rest goes on behind it
    have hrest : ∀ e, data? ρ t = some [e] → kindOf e = scalarKind kind.scalar →
        elementsPre callees (arrayKind kind) kind (vs.length + 1) ts ρ
          (arrayOf kind (vs ++ e :: ts.map (constantSlot kind))) Q := by
      intro e he hkind
      have hdone := @elementsPre_of_areNumbers hρ ts kind (vs ++ [e]) Q hts (by omega)
        (by rw [List.length_append, List.length_singleton]; omega) fun ws hws hkinds => by
          rw [List.append_assoc]
          refine hQ (e :: ws) ?_ (List.forall_mem_cons.2 ⟨hkind, hkinds⟩)
          simp only [elements?, he, hws, Option.map_some]
      rwa [List.length_append, List.length_singleton, List.append_assoc] at hdone
    rw [elementsPre, List.map_cons]
    by_cases hc : (constant? kind t).isNone
    · rw [if_pos hc]
      intro k hk
      obtain rfl : scalarKind kind.scalar = k := by simpa using hty.symm.trans hk
      refine termPre_of_isDatum hρ ht (by omega) fun cs hcs hkinds hhold => ?_
      obtain ⟨⟨j, e⟩, rfl, hj⟩ := List.map_eq_singleton_iff.1 (hkinds.trans hty)
      cases hj
      have hkind : kindOf e = scalarKind kind.scalar :=
        (hhold _ List.mem_cons_self).resolve_left (scalarKind_ne_endTag _)
      refine ⟨e, _, rfl, by cases kind <;> decide, fun m => ?_, hrest e hcs hkind⟩
      exact withPart_arrayOf _ (by rw [List.length_map]; omega) hkind m
    · rw [if_neg hc]
      obtain ⟨τ, l, rfl, hslot⟩ := exists_literal hc
      rw [isDatum, beq_iff_eq] at ht
      have hkind : kindOf (.ofLiteral l) = scalarKind kind.scalar := by
        simpa using ht.symm.trans hty
      rw [hslot]
      exact hrest _ rfl hkind

theorem listPre_of_areData (hρ : ρ.Hold) : ∀ {ts : List Term} {vs : List Nbt}
    {Q : List Nbt → Prop}, areData ρ.kinds ts → termsWeight ts < 2 ^ 31 →
    (∀ ws, elements? ρ ts = some ws → Q (vs ++ ws)) → listPre callees ts ρ vs Q
  | [], vs, _, _, _, hQ => vs.append_nil ▸ hQ [] rfl
  | t :: ts, vs, _, h, hw, hQ => by
    rw [areData, Bool.and_eq_true] at h
    rw [termsWeight] at hw
    intro k hk
    refine termPre_of_isDatum hρ h.1 (by omega) fun cs hcs hkinds hhold => ?_
    obtain ⟨⟨j, e⟩, rfl, hj⟩ := List.map_eq_singleton_iff.1 (hkinds.trans hk)
    cases hj
    refine ⟨e, rfl, listPre_of_areData hρ h.2 (by omega) fun ws hws => ?_⟩
    rw [List.append_assoc]
    refine hQ (e :: ws) ?_
    simp only [elements?, hcs, hws, List.map_cons, List.map_nil, Option.map_some]

theorem fieldsPre_of_areData (hρ : ρ.Hold) : ∀ {fields : List (String × Term)}
    {vs : List (String × Nbt)} {Q : List (String × Nbt) → Prop}, fieldsAreData ρ.kinds fields →
    fieldsWeight fields < 2 ^ 31 → (vs.map (·.1) ++ fields.map (·.1)).Nodup →
    (∀ ws, fields? ρ fields = some ws → Q (vs ++ ws)) → fieldsPre callees fields ρ vs Q
  | [], vs, _, _, _, _, hQ => vs.append_nil ▸ hQ [] rfl
  | (key, t) :: rest, vs, _, h, hw, hkeys, hQ => by
    rw [fieldsAreData, Bool.and_eq_true] at h
    rw [fieldsWeight] at hw
    intro k hk
    refine termPre_of_isDatum hρ h.1 (by omega) fun cs hcs hkinds hhold => ?_
    obtain ⟨⟨j, e⟩, rfl, hj⟩ := List.map_eq_singleton_iff.1 (hkinds.trans hk)
    cases hj
    have hkey : key ∉ Keyed.keys vs := fun hmem =>
      (List.nodup_append.1 hkeys).2.2 _ hmem _ List.mem_cons_self rfl
    refine ⟨e, rfl, ?_⟩
    rw [Keyed.insert_of_notMem hkey]
    refine fieldsPre_of_areData hρ h.2 (by omega) (by simpa using hkeys) fun ws hws => ?_
    rw [List.append_assoc]
    refine hQ ((key, e) :: ws) ?_
    simp only [fields?, hcs, hws, List.map_cons, List.map_nil, Option.map_some]

end

end

/-! ## The code of data terms -/

section

variable {Γ : List (Nat × List StackKind)}

mutual

/-- Code for a data term leaves the registers alone. -/
theorem isQuiet_of_isDatum : ∀ {t : Term}, isDatum Γ t → isQuiet t
  | .literal .., _ | .var .., _ => rfl
  | .array _ _ es, h => by
    rw [isDatum, Bool.and_eq_true] at h
    exact areQuiet_of_areNumbers h.2
  | .list _ es, h | .tuple _ es, h => by
    rw [isDatum, Bool.and_eq_true] at h
    exact areQuiet_of_areData h.2
  | .compound _ fields, h => by
    rw [isDatum, Bool.and_eq_true] at h
    exact fieldsAreQuiet_of_areData h.2

theorem areQuiet_of_areData : ∀ {ts : List Term}, areData Γ ts → areQuiet ts
  | [], _ => rfl
  | t :: ts, h => by
    rw [areData, Bool.and_eq_true] at h
    rw [areQuiet, Bool.and_eq_true]
    exact ⟨isQuiet_of_isDatum h.1, areQuiet_of_areData h.2⟩

theorem areQuiet_of_areNumbers : ∀ {ts : List Term} {k : StackKind}, areNumbers Γ k ts →
    areQuiet ts
  | [], _, _ => rfl
  | t :: ts, _, h => by
    simp only [areNumbers, Bool.and_eq_true] at h
    rw [areQuiet, Bool.and_eq_true]
    exact ⟨isQuiet_of_isDatum h.1.1, areQuiet_of_areNumbers h.2⟩

theorem fieldsAreQuiet_of_areData : ∀ {fields : List (String × Term)},
    fieldsAreData Γ fields → fieldsAreQuiet fields
  | [], _ => rfl
  | (_, t) :: rest, h => by
    rw [fieldsAreData, Bool.and_eq_true] at h
    rw [fieldsAreQuiet, Bool.and_eq_true]
    exact ⟨isQuiet_of_isDatum h.1, fieldsAreQuiet_of_areData h.2⟩

end

end

/-- Nothing is known of callees. -/
def Callees.unknown : Callees where
  pre _ _ _ _ := False
  mono _ h := h

/-- Code for a data term leads to the slots of its value on top of those before. -/
theorem leads_of_isDatum {options : Options} {t : Term} {ρ : Bound} {F : Frame} {o o' : Output}
    {s : State} (hdata : isDatum ρ.kinds t) (hρ : ρ.Hold)
    (hcode : term options t o = .ok ((), o')) (hF : Matches F o.slots s) (hscope : F.Represents ρ)
    (hsmall : F.Small (termWeight t)) :
    ∃ is, o'.instructions.toList = o.instructions.toList ++ is ∧
      leads (Callees.unknown.calls options) is s fun s' => s'.score = s.score ∧
        ∃ cs : Cells, data? ρ t = some (cs.map (·.2)) ∧ cs.map (·.1) = t.ty.erase ∧
          Matches (held .free cs ++ F) o'.slots s' := by
  have hemits : Emits (Callees.unknown.calls options) (term options t) _ := emits_term options t
  obtain ⟨is, his, hleads⟩ := hemits o () o' hcode
  have hweight : termWeight t < 2 ^ 31 := Nat.lt_of_le_of_lt (Nat.le_add_left _ _) (hsmall .byte)
  refine ⟨is, his, hleads s (fun _ slots s' => s'.score = s.score ∧
    ∃ cs : Cells, data? ρ t = some (cs.map (·.2)) ∧ cs.map (·.1) = t.ty.erase ∧
      Matches (held .free cs ++ F) slots s') ⟨F, ρ, hF, hscope, hsmall, ?_⟩⟩
  refine termPre_of_isDatum hρ hdata hweight fun cs hcs hkinds _ slots s' hF' hscore => ?_
  exact ⟨hscore (isQuiet_of_isDatum hdata), cs, hcs, hkinds, hF'⟩

/-- **Aggregates are built in place.** If code generation accepts a data term of one slot, then on
every state that matches the slots before, over any prefix, its instructions end and leave one more
slot, with the value that the term denotes; every other slot of every stack is as it was. -/
theorem pushes_value {options : Options} {t : Term} {k : StackKind} {ρ : Bound} {F : Frame}
    {o o' : Output} {s : State} (hdata : isDatum ρ.kinds t) (hslot : t.ty.erase = [k])
    (hρ : ρ.Hold) (hcode : term options t o = .ok ((), o'))
    (hF : Matches F o.slots s) (hscope : F.Represents ρ) (hsmall : F.Small (termWeight t)) :
    ∃ is v, o'.instructions.toList = o.instructions.toList ++ is ∧ data? ρ t = some [v] ∧
      o'.slots.stack = (o.slots.push k).stack ∧
      ∃ n, ∃ s' : State, s'.stack = (pushCells s [(k, v)]).stack ∧ s'.score = s.score ∧
        ∀ (program : Program) fuel base,
          run program (n + fuel) is (s.above base) = ⟨s'.above base, fuel, none⟩ := by
  obtain ⟨is, his, hleads⟩ := leads_of_isDatum hdata hρ hcode hF hscope hsmall
  have hcalls : (Callees.unknown.calls options).Realized
      (fun i : Program × PerKind (List Nbt) => i.1) (·.2) := by
    rintro l s Q ⟨_, _, _, _, _, -, -, hpre, -⟩
    cases hpre
  obtain ⟨n, s', ⟨hscore, cs, hcs, hkinds, hF'⟩, hrun⟩ := ends_of_leads hcalls hleads
  obtain ⟨⟨j, v⟩, rfl, hj⟩ := List.map_eq_singleton_iff.1 (hkinds.trans hslot)
  cases hj
  refine ⟨is, v, his, hcs, ?_, n, s', ?_, hscore, fun program fuel base =>
    hrun fuel (program, base)⟩
  · rw [hF'.uses, Slots.uses_push hF.uses _ v]
  · funext j
    rw [hF'.values, stack_pushCells, Frame.values_append, hF.values]

/-- A number and a list of lists in scope. -/
def rowScope : Bound := [(1, [(.list, .list [.list [.int 7]])]), (0, [(.int, .int 5)])]

/-- The slots of `rowScope`, and a number that belongs to no variable on top of them. -/
def rowFrame : Frame := held .free [(.int, .int 9)] ++ ofBindings rowScope

/-- The model of `rowFrame`. -/
def rowSlots : Slots :=
  ⟨((PerKind.const []).update .int fun _ => [.free, .bound 0]).update .list fun _ => [.bound 1]⟩

/-- A state with `rowFrame` on its stacks. -/
def rowState : State :=
  pushCells .empty [(.int, .int 5), (.list, .list [.list [.int 7]]), (.int, .int 9)]

/-- A record with an array that has a computed element between two constants, and with a list that
has lists in it: one built in place, with a tuple of one slot, and one from a variable. -/
def rowRecord : Term :=
  .compound (.compound [("rows", .list (.list .int)), ("xs", .array .int)])
    [("rows", .list (.list (.list .int))
      [.list (.list .int) [.ofTuple [.ofTuple [], .var .int ⟨"x", 0⟩], .literal .int (.int 2)],
        .var (.list .int) ⟨"row", 1⟩]),
      ("xs", .array (.array .int) .int
        [.literal .int (.int 1), .var .int ⟨"x", 0⟩, .literal .int (.int 3)])]

theorem pushes_value_rowRecord :
    isDatum rowScope.kinds rowRecord ∧ Matches rowFrame rowSlots rowState ∧
    ∃ is n, ∃ s' : State, s'.stack = (pushCells rowState [(.compound, .compound
        [("rows", .list [.list [.int 5, .int 2], .list [.list [.int 7]]]),
          ("xs", .intArray [1, 5, 3])])]).stack ∧
      ∀ fuel base,
        run .empty (n + fuel) is (rowState.above base) = ⟨s'.above base, fuel, none⟩ := by
  have hdata : isDatum rowScope.kinds rowRecord := by decide +kernel
  have hmatches : Matches rowFrame rowSlots rowState :=
    ⟨funext fun k => by cases k <;> rfl, funext fun k => by cases k <;> rfl⟩
  obtain ⟨o', hcode⟩ : ∃ o', term ⟨"minecraft", false⟩ rowRecord ⟨rowSlots, #[]⟩ = .ok ((), o') :=
    ⟨_, rfl⟩
  obtain ⟨is, v, -, hv, -, n, s', hs', -, hrun⟩ := pushes_value (k := .compound) hdata rfl
    (by simp [Bound.Hold, Cells.Hold, rowScope, kindOf]) hcode hmatches
    (Frame.ext_on fun k => by cases k <;> rfl) fun k => by cases k <;> decide +kernel
  cases hv
  exact ⟨hdata, hmatches, is, n, s', hs', hrun .empty⟩

end Stagecraft.Emit
