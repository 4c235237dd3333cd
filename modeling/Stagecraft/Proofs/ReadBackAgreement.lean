import Stagecraft.Eval.ReadBack
import Stagecraft.Proofs.EvaluationAgreement

/-!
# Reading back data

A head form that reads back to data reads back to the flat value it shows (`readBack_agrees`), at
every type without refinements and unions. Nothing is said of a value that does not read back to
data: a function or a stuck computation in it may leave the store in any state.
-/

namespace Stagecraft

namespace Staged

mutual

/-- Whether data of the type reads back as it is: outside of functions and code, nothing in the type
is refined and nothing is a union. -/
def Ty.isPlain : Ty → Bool
  | .singleton _ | .union _ => false
  | .list e | .ref e => isPlain e
  | .compound fields => areFieldsPlain fields
  | .tuple es => arePlain es
  | .scalar _ | .array _ | .function .. | .code _ | .var _ | .alias _ | .hole => true

/-- Whether several types are plain. -/
def Ty.arePlain : List Ty → Bool
  | [] => true
  | t :: ts => Ty.isPlain t && Ty.arePlain ts

/-- Whether the types of the fields of a record are plain. -/
def Ty.areFieldsPlain : List (String × Ty) → Bool
  | [] => true
  | (_, t) :: rest => Ty.isPlain t && Ty.areFieldsPlain rest

end

/-- Whether the result of every function and the body of every type alias is plain. -/
def Table.isPlain (table : Table) : Bool :=
  table.definitions.all fun
    | .function f => f.result.isPlain
    | .alias a => a.body.isPlain
    | .resource _ => true

theorem Ty.isPlain_of_find? {fields : List (String × Ty)} (h : Ty.areFieldsPlain fields = true)
    {key : String} {t : Ty} (ht : Keyed.find? key fields = some t) : t.isPlain = true := by
  induction fields with
  | nil => cases ht
  | cons f rest ih =>
    obtain ⟨k, u⟩ := f
    simp only [Ty.areFieldsPlain, Bool.and_eq_true] at h
    by_cases hk : k = key
    · rw [Keyed.find?, if_pos hk] at ht
      cases ht
      exact h.1
    · rw [Keyed.find?, if_neg hk] at ht
      exact ih h.2 ht

theorem Table.isPlain_alias {table : Table} (h : table.isPlain = true) {name : DefName} {body : Ty}
    (hbody : table.alias? name = some body) : body.isPlain = true := by
  unfold Table.alias? at hbody
  split at hbody
  · next a ha =>
    cases hbody
    exact List.all_eq_true.1 h _ (List.mem_of_find?_eq_some ha)
  · cases hbody

theorem Table.isPlain_function {table : Table} (h : table.isPlain = true) {f : Function}
    (hf : .function f ∈ table.definitions) : f.result.isPlain = true :=
  List.all_eq_true.1 h _ hf

end Staged

namespace Eval

open Staged (Ty)
open Flat (Program)

/-- Following aliases of a table of plain types leads from a plain type to a plain type. -/
theorem resolveWithin_isPlain {table : Staged.Table} (h : table.isPlain = true) :
    ∀ {fuel : Nat} {ty view : Ty}, ty.isPlain = true →
      resolveWithin table fuel ty = .ok view → view.isPlain = true
  | 0, _, _, _, hview => nomatch hview
  | fuel + 1, ty, view, hty, hview => by
    unfold resolveWithin at hview
    split at hview
    · cases hview
    · split at hview
      · next body hbody =>
        exact resolveWithin_isPlain h (Staged.Table.isPlain_alias h hbody) hview
      · cases hview
        rfl
    · cases hview
    · cases hview
      exact hty

theorem ofData?_withTy (ty : Ty) (t : Staged.Term) : ofData? (t.withTy ty) = ofData? t := by
  cases t <;> rfl

/-! ## Computations with a data result -/

/-- Whatever a computation returns has a property. -/
def Returns {α : Type} (x : EvalM α) (p : α → Prop) : Prop :=
  ∀ ⦃s a s'⦄, x s = (.ok a, s') → p a

namespace Returns

variable {α β : Type} {p : β → Prop}

theorem ret {b : β} (h : p b) : Returns (pure b) p := by
  intro s a s' hx
  cases hx
  exact h

theorem bind {x : EvalM α} {f : α → EvalM β} (h : ∀ a, Returns (f a) p) :
    Returns (x >>= f) p := by
  intro s b s'' hx
  obtain ⟨a, s', _, hb⟩ := EvalM.bind_ok.1 hx
  exact h a hb

end Returns

/-- Whenever a computation goes through from a store that agrees with a world and its result is
data, it is the given data, and the store it leaves agrees with a larger world. -/
def Reads {α δ : Type} (table : Staged.Table) (P : Program) (Ω : World) (x : EvalM α)
    (data? : α → Option δ) (d : δ) : Prop :=
  ∀ ⦃s a s' d'⦄, Consistent table P Ω s → x s = (.ok a, s') → data? a = some d' →
    d' = d ∧ ∃ Ω', Ω ≤ Ω' ∧ Consistent table P Ω' s'

namespace Reads

variable {table : Staged.Table} {P : Program} {Ω : World} {α β δ δ' : Type}

theorem ret {a : α} {data? : α → Option δ} {d : δ} (h : ∀ d', data? a = some d' → d' = d) :
    Reads table P Ω (pure a) data? d := by
  intro s b s' d' hs hx hd
  cases hx
  exact ⟨h d' hd, Ω, World.le_refl Ω, hs⟩

theorem fail {e : Error} {data? : α → Option δ} {d : δ} :
    Reads table P Ω (EvalM.fail e) data? d :=
  fun _ _ _ _ _ h => nomatch h

theorem outOfFuel {data? : α → Option δ} {d : δ} : Reads table P Ω EvalM.outOfFuel data? d :=
  fun _ _ _ _ _ h => nomatch h

/-- A computation that never returns data. -/
theorem never {x : EvalM α} {data? : α → Option δ} {d : δ}
    (h : Returns x fun a => data? a = none) : Reads table P Ω x data? d := by
  intro s a s' d' _ hx hd
  rw [h hx] at hd
  cases hd

theorem afterYields {x : EvalM α} {Q : World → α → Prop} {f : α → EvalM β} {data? : β → Option δ}
    {d : δ} (hx : Yields table P Ω x Q)
    (hf : ∀ a Ω', Ω ≤ Ω' → Q Ω' a → Reads table P Ω' (f a) data? d) :
    Reads table P Ω (x >>= f) data? d := by
  intro s b s'' d' hs h hd
  obtain ⟨a, s', ha, hb⟩ := EvalM.bind_ok.1 h
  obtain ⟨Ω', hle, hs', hQ⟩ := hx hs ha
  obtain ⟨hd', Ω'', hle', hs''⟩ := hf a Ω' hle hQ hs' hb hd
  exact ⟨hd', Ω'', World.le_trans hle hle', hs''⟩

/-- Two computations whose joint result is data only if both results are. -/
theorem bind {x : EvalM α} {f : α → EvalM β} {data? : α → Option δ} {data?' : β → Option δ'}
    {d : δ} {d' : δ'} (hx : Reads table P Ω x data? d)
    (hdata : ∀ a, Returns (f a) fun b => data? a = none → data?' b = none)
    (hf : ∀ a Ω', Ω ≤ Ω' → data? a = some d → Reads table P Ω' (f a) data?' d') :
    Reads table P Ω (x >>= f) data?' d' := by
  intro s b s'' v hs h hv
  obtain ⟨a, s', ha, hb⟩ := EvalM.bind_ok.1 h
  cases hda : data? a with
  | none =>
    rw [hdata a hb hda] at hv
    cases hv
  | some u =>
    obtain ⟨rfl, Ω', hle, hs'⟩ := hx hs ha hda
    obtain ⟨hd', Ω'', hle', hs''⟩ := hf a Ω' hle hda hs' hb hv
    exact ⟨hd', Ω'', World.le_trans hle hle', hs''⟩

/-- A result built around another one. -/
theorem map {x : EvalM α} {F : α → β} {data? : α → Option δ} {data?' : β → Option δ'}
    {G : δ → δ'} {d : δ} (hx : Reads table P Ω x data? d)
    (h : ∀ a, data?' (F a) = (data? a).map G) :
    Reads table P Ω (x >>= fun a => pure (F a)) data?' (G d) := by
  refine hx.bind (fun a => .ret fun ha => ?_) fun a Ω' _ ha => .ret fun d' hd' => ?_
  · rw [h, ha]
    rfl
  · rw [h, ha] at hd'
    cases hd'
    rfl

end Reads

/-! ## Read-back -/

section

variable {table : Staged.Table} {P : Program} {forceCell : CellId → EvalM Value}
  {shape : Value → Ty → EvalM Staged.Term}

/-- A form at a type that is data only if it is what the value shows. -/
def Shapes (table : Staged.Table) (P : Program) (shape : Value → Ty → EvalM Staged.Term) : Prop :=
  ∀ ⦃Ω w u ty⦄, Shows table P Ω w u → ty.isPlain = true →
    Reads table P Ω (shape u ty) ofData? w

theorem readBackWith_agrees (hshape : Shapes table P shape) {Ω : World} {w : Flat.Value}
    {u : Value} {ty : Ty} (hu : Shows table P Ω w u) (hty : ty.isPlain = true) :
    Reads table P Ω (readBackWith shape u ty) ofData? w := by
  unfold readBackWith
  split
  · next l hl =>
    cases ty <;> cases hl
    cases hty
  · refine Reads.map (G := fun w => w) (hshape hu hty) fun t => ?_
    rw [ofData?_withTy, Option.map_id']

variable (hforce : Forces table P forceCell) (hshape : Shapes table P shape)

include hforce hshape

theorem readCell_agrees {Ω : World} {w : Flat.Value} {c : CellId} {ty : Ty} (hc : Ω c = some w)
    (hty : ty.isPlain = true) :
    Reads table P Ω (readCell forceCell shape c ty) ofData? w := by
  unfold readCell
  exact .afterYields (hforce hc) fun u Ω' _ hu => readBackWith_agrees hshape hu hty

omit hforce hshape in
/-- A list of data read back element by element. -/
theorem Reads.consData {Ω : World} {x : EvalM Staged.Term} {xs : EvalM (List Staged.Term)}
    {w : Flat.Value} {ws : List Flat.Value} (hx : Reads table P Ω x ofData? w)
    (hxs : ∀ Ω', Ω ≤ Ω' → Reads table P Ω' xs ofDataAll? ws) :
    Reads table P Ω (do return (← x) :: (← xs)) ofDataAll? (w :: ws) := by
  refine hx.bind (fun t => .bind fun ts => .ret fun ht => ?_) fun t Ω' hle ht =>
    (hxs Ω' hle).map (G := fun ws => w :: ws) fun ts => ?_
  · simp only [ofDataAll?, ht]
    rfl
  · simp only [ofDataAll?, ht, Option.bind_eq_bind, Option.bind_some, Option.pure_def]
    cases ofDataAll? ts <;> rfl

theorem readCells_agrees {ty : Ty} (hty : ty.isPlain = true) : ∀ {Ω : World}
    {ws : List Flat.Value} {cs : List CellId}, Cells Ω ws cs →
      Reads table P Ω (readCells forceCell shape ty cs) ofDataAll? ws
  | _, [], [], .nil => .ret fun _ h => (Option.some.inj h).symm
  | _, _ :: _, _ :: _, .cons hc hcs =>
    (readCell_agrees hforce hshape hc hty).consData fun _ hle =>
      readCells_agrees hty (Cells.mono hle hcs)

theorem readTuple_agrees : ∀ {Ω : World} {ws : List Flat.Value} {cs : List CellId}
    {tys : List Ty}, Cells Ω ws cs → cs.length = tys.length → Ty.arePlain tys = true →
      Reads table P Ω (readTuple forceCell shape cs tys) ofDataAll? ws
  | _, [], [], [], .nil, _, _ => .ret fun _ h => (Option.some.inj h).symm
  | Ω, w :: ws, c :: cs, ty :: tys, .cons hc hcs, hlen, htys => by
    simp only [Ty.arePlain, Bool.and_eq_true] at htys
    exact (readCell_agrees hforce hshape hc htys.1).consData fun Ω' hle =>
      readTuple_agrees (Cells.mono hle hcs) (Nat.succ.inj hlen) htys.2

theorem readFields_agrees {e : Error} {tys : List (String × Ty)}
    (htys : Ty.areFieldsPlain tys = true) : ∀ {Ω : World} {ws : List (String × Flat.Value)}
    {fields : List (String × CellId)}, FieldCells Ω ws fields →
      Reads table P Ω (readFields forceCell shape e tys fields) ofDataFields? ws
  | _, [], [], .nil => .ret fun _ h => (Option.some.inj h).symm
  | Ω, (key, w) :: ws, (key', c) :: fields, .cons hc hfields => by
    obtain ⟨rfl, hc⟩ := hc
    unfold readFields
    split
    · exact .fail
    · next ty hty =>
      refine (readCell_agrees hforce hshape hc (Ty.isPlain_of_find? htys hty)).bind
        (fun t => .bind fun rest => .ret fun ht => ?_) fun t Ω' hle ht =>
          (readFields_agrees htys (FieldCells.mono hle hfields)).map
            (G := fun ws => (key, w) :: ws) fun rest => ?_
      · simp only [ofDataFields?, ht]
        rfl
      · simp only [ofDataFields?, ht, Option.bind_eq_bind, Option.bind_some, Option.pure_def]
        cases ofDataFields? rest <;> rfl

/-- The form of a value at a plain type is data only if it is what the value shows. -/
theorem shapeWith_agrees {cx : Context} {eval : Evaluation} (hcx : cx.definitions.isPlain = true) :
    Shapes table P (shapeWith cx eval forceCell shape) := by
  intro Ω w u ty hu hty
  unfold shapeWith
  refine .afterYields Yields.ofExcept fun view Ω' hle hview => ?_
  have hview := resolveWithin_isPlain hcx hty hview
  cases hu.mono hle with
  | neutral hn =>
    refine .never ?_
    cases u with
    | var => exact .ret rfl
    | apply => exact .bind fun _ => .bind fun _ => .ret rfl
    | cond => exact .bind fun _ => .bind fun _ => .bind fun _ => .ret rfl
    | call => exact .bind fun _ => .ret rfl
    | test => exact .bind fun _ => .ret rfl
    | command => exact .ret rfl
    | splice => exact .bind fun _ => .ret rfl
    | project => exact .bind fun _ => .ret rfl
    | _ => cases hn
  | literal => exact .ret fun _ h => (Option.some.inj h).symm
  | array hcs =>
    exact (readCells_agrees hforce hshape rfl hcs).map (F := Staged.Term.array ty _)
      (G := Flat.Value.array _) fun _ => rfl
  | list hcs =>
    cases view with
    | list element =>
      rw [Ty.isPlain] at hview
      exact (readCells_agrees hforce hshape hview hcs).map (F := Staged.Term.list ty)
        (G := Flat.Value.list) fun _ => rfl
    | union => cases hview
    | _ => exact .fail
  | compound hfields =>
    cases view with
    | compound tys =>
      exact (readFields_agrees hforce hshape hview hfields).map (F := Staged.Term.compound ty)
        (G := Flat.Value.compound) fun _ => rfl
    | union => cases hview
    | _ => exact .fail
  | ref hc =>
    cases view with
    | ref element =>
      rw [Ty.isPlain] at hview
      exact (readCell_agrees hforce hshape hc hview).map (F := Staged.Term.ref ty)
        (G := Flat.Value.ref) fun _ => rfl
    | union => cases hview
    | _ => exact .fail
  | tuple hcs =>
    cases view with
    | tuple tys =>
      dsimp only
      split
      · next hlen =>
        exact (readTuple_agrees hforce hshape hcs hlen hview).map (F := Staged.Term.tuple ty)
          (G := Flat.Value.tuple) fun _ => rfl
      · exact .fail
    | union => cases hview
    | _ => exact .fail
  | closure =>
    cases view with
    | function param result =>
      exact .never (.bind fun _ => .bind fun _ => .bind fun _ => .ret rfl)
    | union => cases hview
    | _ => exact .fail

end

/-- The form of a value at a plain type is data only if it is what the value shows. -/
theorem readShape_agrees {table : Staged.Table} {P : Program} {cx : Context}
    (h : Agreement cx table P) (hplain : table.isPlain = true) :
    ∀ fuel, Shapes table P (readShape cx fuel)
  | 0 => fun _ _ _ _ _ _ => Reads.outOfFuel
  | fuel + 1 => shapeWith_agrees (evaluate_agrees h fuel).force (readShape_agrees h hplain fuel)
      (h.definitions ▸ hplain)

/-- A term that stands for a flat value, evaluated and read back at a plain type, gives data only if
the data is that value. -/
theorem normalizeAt_agrees {table : Staged.Table} {P : Program} {cx : Context}
    (h : Agreement cx table P) (hplain : table.isPlain = true) {fuel : Nat} {t v : Staged.Term}
    {ty : Ty} {w d : Flat.Value}
    (ht : ∀ Ω, Yields table P Ω (evaluate cx fuel Env.empty t) fun Ω' u => Shows table P Ω' w u)
    (hty : ty.isPlain = true) (hv : normalizeAt cx fuel t ty = .ok v) (hd : ofData? v = some d) :
    d = w := by
  have hreads : Reads table P (fun _ => none) (do
      let u ← evaluate cx fuel Env.empty t
      readBack cx fuel u ty) ofData? w :=
    .afterYields (ht _) fun u Ω' _ hu =>
      readBackWith_agrees (readShape_agrees h hplain fuel) hu hty
  have hstart : Consistent table P (fun _ => none) Store.empty := fun _ _ hc => nomatch hc
  exact (hreads hstart (Prod.ext hv rfl) hd).1

end Eval

end Stagecraft
