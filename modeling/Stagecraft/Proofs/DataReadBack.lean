import Stagecraft.Proofs.Termination
import Stagecraft.Proofs.Unfolding

/-!
# Reading data back

All data is read back in one way: the components of a value are read at the types that the type of
the value gives them, and the form of the value is put around them (`readShape_datum`). A type that
gives a value no such types is a union, and an alternative is read instead, or it is none of the
value's types. So data that was read back was read component by component at some alternative
(`ReadsAt`, `readsAt_of_shape`).
-/

namespace Stagecraft

open Staged (Ty Pattern Term Table)

namespace Staged

/-- A node of data. -/
def Term.isDatum : Term → Bool
  | .literal .. | .array .. | .list .. | .compound .. | .ref .. | .tuple .. => true
  | .lambda .. | .apply .. | .cond .. | .letIn .. | .var .. | .call .. | .test .. | .command ..
  | .quote .. | .splice .. | .hole _ => false

/-- A term made only of literals, arrays, lists, records, boxes and tuples. -/
def Term.isData (t : Term) : Bool := t.everywhere isDatum

theorem Term.isData_withTy (t : Term) (ty : Ty) : (t.withTy ty).isData = t.isData := by
  cases t <;> rfl

theorem Term.allEverywhere_iff {p : Term → Bool} {ts : List Term} :
    allEverywhere p ts = true ↔ ∀ t ∈ ts, t.everywhere p = true := by
  induction ts with
  | nil => simp [allEverywhere]
  | cons t ts ih =>
    rw [allEverywhere, Bool.and_eq_true, ih, List.forall_mem_cons, everywhere]

theorem Term.fieldsEverywhere_iff {p : Term → Bool} {fields : List (String × Term)} :
    fieldsEverywhere p fields = true ↔ ∀ t ∈ fields.map (·.2), t.everywhere p = true := by
  induction fields with
  | nil => simp [fieldsEverywhere]
  | cons f rest ih =>
    rw [fieldsEverywhere, Bool.and_eq_true, ih, List.map_cons, List.forall_mem_cons, everywhere]

end Staged

namespace Eval.ByName

/-! ## The form of data -/

/-- A value that is data at its head. -/
def Value.isDatum : Value → Bool
  | .literal _ | .array .. | .list _ | .compound _ | .ref _ | .tuple _ => true
  | .closure .. | .quote _ | .var _ | .apply .. | .cond .. | .call .. | .test .. | .command _
  | .splice .. | .project .. => false

/-- The types at which the components of a value are read back, if the type has a place for the
value. A field whose key the type does not have has none. -/
def Value.componentTys : Value → Ty → Option (List (Option Ty))
  | .literal _, _ => some []
  | .array kind θs, _ => some (List.replicate θs.length (some (.ofElement kind)))
  | .list θs, .list e => some (List.replicate θs.length (some e))
  | .compound fs, .compound tys => some ((fs.map (·.1)).map fun key => Keyed.find? key tys)
  | .ref _, .ref e => some [some e]
  | .tuple θs, .tuple tys => if θs.length = tys.length then some (tys.map some) else none
  | _, _ => none

/-- A term with the form of a value, at a type, around the terms of its components. -/
def Value.around (ty : Ty) (ts : List Term) : Value → Term
  | .literal l => .literal ty l
  | .array kind _ => .array ty kind ts
  | .list _ => .list ty ts
  | .compound fs => .compound ty ((fs.map (·.1)).zip ts)
  | .ref _ => .ref ty (ts.headD (.hole ty))
  | .tuple _ => .tuple ty ts
  | .closure .. | .quote _ | .var _ | .apply .. | .cond .. | .call .. | .test .. | .command _
  | .splice .. | .project .. => .hole ty

section

variable (eval : Evaluation) (shape : Value → Ty → Result Term)

/-- Components read back, each at its type. -/
def readComponents (onMissing : Error) : List Thunk → List (Option Ty) → Result (List Term)
  | θ :: θs, some ty :: tys => do
    let t ← readThunk eval shape θ ty
    return t :: (← readComponents onMissing θs tys)
  | _ :: _, none :: _ => Result.fail onMissing
  | _, _ => .ok []

theorem readThunks_eq (e : Error) (ty : Ty) : ∀ θs : List Thunk,
    readThunks eval shape ty θs =
      readComponents eval shape e θs (List.replicate θs.length (some ty))
  | [] => rfl
  | θ :: θs => by
    rw [readThunks, readThunks_eq e ty θs, List.length_cons, List.replicate_succ, readComponents]

theorem readTuple_eq (e : Error) : ∀ (θs : List Thunk) (tys : List Ty),
    readTuple eval shape θs tys = readComponents eval shape e θs (tys.map some)
  | [], tys => by cases tys <;> rfl
  | _ :: _, [] => rfl
  | θ :: θs, ty :: tys => by
    rw [readTuple, readTuple_eq e θs tys, List.map_cons, readComponents]

theorem readFields_eq (e : Error) (tys : List (String × Ty)) : ∀ fs : List (String × Thunk),
    readFields eval shape e tys fs = do
      let ts ← readComponents eval shape e (fs.map (·.2))
        ((fs.map (·.1)).map fun key => Keyed.find? key tys)
      return (fs.map (·.1)).zip ts
  | [] => rfl
  | (key, θ) :: rest => by
    rw [readFields, List.map_cons, List.map_cons, List.map_cons]
    cases Keyed.find? key tys with
    | none => rfl
    | some ty =>
      rw [readComponents, readFields_eq e tys rest]
      dsimp only
      cases readThunk eval shape θ ty with
      | error => rfl
      | ok t =>
        cases readComponents eval shape e (rest.map (·.2))
          ((rest.map (·.1)).map fun key => Keyed.find? key tys) <;> rfl

/-- Data read back at the view of a type. -/
def readDatum (v : Value) (ty view : Ty) : Result Term :=
  match v.componentTys view, view with
  | some tys, _ => do
    return v.around ty (← readComponents eval shape (atType v ty) v.components tys)
  | none, .union alternatives => readUnion shape (atType v ty) v alternatives
  | none, _ => Result.fail (atType v ty)

/-- How data is read back. -/
theorem shapeWith_datum (cx : Context) {v : Value} (hv : v.isDatum = true) (ty : Ty) :
    shapeWith cx eval shape v ty =
      Result.ofExcept (resolve cx.definitions ty) >>= readDatum eval shape v ty := by
  unfold shapeWith
  cases resolve cx.definitions ty with
  | error e => rfl
  | ok view =>
    change _ = readDatum eval shape v ty view
    unfold readDatum
    simp only [Result.ofExcept]
    cases v with
    | closure | quote | var | apply | cond | call | test | command | splice | project => cases hv
    | literal l => rfl
    | array kind θs =>
      simp only [Value.componentTys, Value.components, ← readThunks_eq]
      rfl
    | list θs =>
      cases view with
      | list e =>
        simp only [Value.componentTys, Value.components, ← readThunks_eq]
        rfl
      | _ => rfl
    | compound fs =>
      cases view with
      | compound tys =>
        change (readFields eval shape (atType (.compound fs) ty) tys fs >>= fun fields =>
          pure (Term.compound ty fields)) = _
        rw [readFields_eq, bind_assoc]
        rfl
      | _ => rfl
    | ref θ =>
      cases view with
      | ref e =>
        change (readThunk eval shape θ e >>= fun t => pure (Term.ref ty t)) =
          ((readThunk eval shape θ e >>= fun t => pure [t]) >>= fun ts =>
            pure (Term.ref ty (ts.headD (.hole ty))))
        rw [bind_assoc]
        rfl
      | _ => rfl
    | tuple θs =>
      cases view with
      | tuple tys =>
        simp only [Value.componentTys, Value.components]
        change (if θs.length = tys.length then (readTuple eval shape θs tys >>= fun ts =>
          pure (Term.tuple ty ts)) else Result.fail (atType (.tuple θs) ty)) = _
        split
        · rw [readTuple_eq eval shape (atType (.tuple θs) ty)]
          rfl
        · rfl
      | _ => rfl

end

/-! ## The types of components -/

section

variable {table : Table} {v : Value} {ty view : Ty} {tys : List (Option Ty)}

theorem componentTys_tuple {θs : List Thunk} {es : List Ty}
    (h : (Value.tuple θs).componentTys (.tuple es) = some tys) :
    θs.length = es.length ∧ tys = es.map some := by
  change (if θs.length = es.length then some (es.map some) else none) = some tys at h
  split at h
  · next hlen =>
    cases h
    exact ⟨hlen, rfl⟩
  · cases h

theorem length_componentTys (hv : v.isDatum = true) (h : v.componentTys view = some tys) :
    tys.length = v.components.length := by
  cases v with
  | closure | quote | var | apply | cond | call | test | command | splice | project => cases hv
  | literal => cases h; rfl
  | array kind θs => cases h; exact List.length_replicate
  | list θs => cases view <;> cases h; exact List.length_replicate
  | compound fs =>
    cases view <;> cases h
    simp only [List.length_map, Value.components]
  | ref θ => cases view <;> cases h; rfl
  | tuple θs =>
    cases view with
    | tuple es =>
      obtain ⟨hlen, rfl⟩ := componentTys_tuple h
      rw [List.length_map, ← hlen]
      rfl
    | _ => cases h

theorem offers_of_resolve {σs : List Ty} (h : resolve table ty = .ok (.union σs)) {σ : Ty}
    (hmem : σ ∈ σs) : Offers table ty σ :=
  ⟨_, σs, h, hmem⟩

end

/-! ## What read-back says of the components -/

section

variable {eval : Evaluation} {shape : Value → Ty → Result Term} {e : Error}

/-- The first component was forced and read back, and then the others. -/
theorem readComponents_cons {θ : Thunk} {θs : List Thunk} {ty : Ty} {tys : List (Option Ty)}
    {ts : List Term} (h : readComponents eval shape e (θ :: θs) (some ty :: tys) = .ok ts) :
    ∃ u t rest, force eval θ = .ok u ∧ readBackWith shape u ty = .ok t ∧
      readComponents eval shape e θs tys = .ok rest ∧ ts = t :: rest := by
  obtain ⟨t, ht, h⟩ := Except.bind_ok.1 h
  obtain ⟨rest, hrest, heq⟩ := Except.bind_ok.1 h
  obtain ⟨u, hu, ht⟩ := Except.bind_ok.1 ht
  cases heq
  exact ⟨u, t, rest, hu, ht, hrest, rfl⟩

theorem shape_of_readBackWith {v : Value} {ty : Ty} {t : Term} (hnone : ty.singleton? = none)
    (h : readBackWith shape v ty = .ok t) : ∃ s, shape v ty = .ok s ∧ t = s.withTy ty := by
  rcases readBackWith_ok h with ⟨l, hl, -⟩ | ⟨s, -, hs⟩
  · cases hnone.symm.trans hl
  · exact ⟨s, hs⟩

theorem length_readComponents : ∀ {θs : List Thunk} {tys : List (Option Ty)} {ts : List Term},
    θs.length = tys.length → readComponents eval shape e θs tys = .ok ts → ts.length = θs.length
  | [], [], _, _, h => by cases h; rfl
  | _ :: _, none :: _, _, _, h => by cases h
  | θ :: θs, some ty :: tys, _, hlen, h => by
    obtain ⟨u, t, rest, -, -, hrest, rfl⟩ := readComponents_cons h
    rw [List.length_cons, List.length_cons, length_readComponents (Nat.succ.inj hlen) hrest]

theorem exists_of_readUnion {v : Value} {d : Term} {tys : List Ty}
    (h : readUnion shape e v tys = .ok d) : ∃ ty ∈ tys, shape v ty = .ok d := by
  induction tys with
  | nil => cases h
  | cons ty tys ih =>
    rw [readUnion] at h
    rcases hfirst : shape v ty with stop | d' <;> rw [hfirst] at h
    · cases stop with
      | outOfFuel => cases h
      | failed =>
        obtain ⟨ty', hmem, hty'⟩ := ih h
        exact ⟨ty', List.mem_cons_of_mem _ hmem, hty'⟩
    · cases h
      exact ⟨ty, List.mem_cons_self, hfirst⟩

/-- A term that is data around terms is so of data. -/
theorem isData_of_around {v : Value} {ty : Ty} {ts : List Term} (hv : v.isDatum = true)
    (hlen : ts.length = v.components.length) (h : (v.around ty ts).isData = true) :
    ∀ t ∈ ts, t.isData = true := by
  cases v with
  | closure | quote | var | apply | cond | call | test | command | splice | project => cases hv
  | literal =>
    rw [List.eq_nil_of_length_eq_zero hlen]
    nofun
  | array | list | tuple => exact Term.allEverywhere_iff.1 h
  | compound fs =>
    have hts : (((fs.map (·.1)).zip ts).map (·.2)) = ts := by
      refine List.map_snd_zip ?_
      rw [hlen, Value.components, List.length_map, List.length_map]
    have hfields := Term.fieldsEverywhere_iff.1 h
    rwa [hts] at hfields
  | ref θ =>
    obtain ⟨t, rfl⟩ := List.length_eq_one_iff.1 hlen
    rw [List.forall_mem_singleton]
    exact h

end

section

variable {cx : Context}

/-- How data is read back with one more unit of fuel. -/
theorem readShape_datum {k : Nat} {v : Value} (hv : v.isDatum = true) (ty : Ty) :
    readShape cx (k + 1) v ty = Result.ofExcept (resolve cx.definitions ty) >>=
      readDatum (evaluate cx k) (readShape cx k) v ty :=
  shapeWith_datum _ _ cx hv ty

/-- What is read back as data is data. -/
theorem isDatum_of_shape {k : Nat} {v : Value} {ty : Ty} {d : Term}
    (h : readShape cx k v ty = .ok d) (hd : d.isData = true) : v.isDatum = true := by
  cases quotes_of_readShape k v ty d h with
  | literal | array | list | compound | ref | tuple => rfl
  | closure | quote | var | apply | cond | call | test | command | splice | project => cases hd

/-- Data that was read back at a type was read component by component, with less fuel, at the type
or at an alternative of it. -/
inductive ReadsAt (cx : Context) (k : Nat) (v : Value) (ty : Ty) (d : Term) : Prop
  | intro {ty' view tys e j ts} : Relation.ReflTransGen (Offers cx.definitions) ty ty' →
      resolve cx.definitions ty' = .ok view → v.componentTys view = some tys → j < k →
        readComponents (evaluate cx j) (readShape cx j) e v.components tys = .ok ts →
          (d.isData = true → ∀ t ∈ ts, t.isData = true) → ReadsAt cx k v ty d

theorem readsAt_of_shape {v : Value} (hv : v.isDatum = true) : ∀ {k : Nat} {ty : Ty} {d : Term},
    readShape cx k v ty = .ok d → ReadsAt cx k v ty d
  | 0, _, _, h => nomatch h
  | k + 1, ty, d, h => by
    rw [readShape_datum hv] at h
    obtain ⟨view, hview, h⟩ := Except.bind_ok.1 h
    rw [Result.ofExcept_ok] at hview
    unfold readDatum at h
    split at h
    · next tys htys =>
      obtain ⟨ts, hts, heq⟩ := Except.bind_ok.1 h
      cases heq
      have hlen := length_readComponents (length_componentTys hv htys).symm hts
      exact .intro .refl hview htys (Nat.lt_succ_self k) hts (isData_of_around hv hlen)
    · obtain ⟨alternative, hmem, hread⟩ := exists_of_readUnion h
      obtain ⟨hoffers, hview', htys, hj, hts, hdata⟩ := readsAt_of_shape hv hread
      exact .intro (.head (offers_of_resolve hview hmem) hoffers) hview' htys
        (Nat.lt_succ_of_lt hj) hts hdata
    · cases h

end

end Eval.ByName

end Stagecraft
