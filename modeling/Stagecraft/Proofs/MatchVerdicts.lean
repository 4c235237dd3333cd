import Stagecraft.Proofs.Adequacy
import Stagecraft.Proofs.Cycles
import Stagecraft.Proofs.Reflection

/-!
# Verdicts stay when more becomes known

A test of a value that is partly stuck is decided where the parts that are known decide it. Filling
in stuck parts (`Fills`) with values of their types never turns a verdict around, and a value
without stuck parts has a verdict (`verdict_stays`). The one thing that can happen besides is that
the test goes further into the pattern than it did and stops at a hole.

Types enter in one place: they say which values a pattern can meet (`Meets`). The order of the parts
enters in the lemmas about several parts, where a mismatch that comes late wins over undecided parts
before it.
-/

namespace Stagecraft

open Staged (Ty Pattern Term Table)

/-- The types of integers. -/
inductive Staged.Ty.IsInt : Ty → Prop
  | int : IsInt .int
  | singleton {n} : IsInt (.singleton (.int n))

/-- A pattern that can be tested on the values of a type. Of a union it has to fit all
alternatives. -/
inductive Staged.Pattern.Fits (table : Table) : Pattern → Ty → Prop
  | var {info v ty} : Fits table (.var info v) ty
  | wildcard {info ty} : Fits table (.wildcard info) ty
  | hole {info ty} : Fits table (.hole info) ty
  | int {info n ty} : ty.IsInt → Fits table (.int info n) ty
  | range {info min max ty} : ty.IsInt → Fits table (.range info min max) ty
  | list {info ps ty} : (∀ p ∈ ps, Fits table p ty) → Fits table (.list info ps) (.list ty)
  | tuple {info ps tys} : ps.length = tys.length → (∀ e ∈ ps.zip tys, Fits table e.1 e.2) →
      Fits table (.tuple info ps) (.tuple tys)
  | compound {info fields tys} : (∀ f ∈ fields, Keyed.find? f.1 tys ≠ none) →
      (∀ f ∈ fields, ∀ ty, Keyed.find? f.1 tys = some ty → Fits table f.2 ty) →
      Fits table (.compound info fields) (.compound tys)
  | named {p name body} : table.alias? name = some body → Fits table p body →
      Fits table p (.alias name)
  | union {p tys} : (∀ ty ∈ tys, Fits table p ty) → Fits table p (.union tys)

namespace Eval

/-- How the test of a value on a store comes out. -/
def verdict (cx : Context) (fuel : Nat) (p : Pattern) (v : Value) (s : Store) :
    Except (Stop Error) (Option Bool) :=
  (decideMatch (force (evaluate cx fuel)) p v s).1

namespace ByName

/-- The parts of a value that hold data: those of functions, of quoted terms and of stuck values are
left out. -/
def Value.components : Value → List Thunk
  | .array _ θs | .list θs | .tuple θs => θs
  | .compound fs => fs.map (·.2)
  | .ref θ => [θ]
  | .literal _ | .closure .. | .quote _ | .var _ | .apply .. | .cond .. | .call .. | .test ..
  | .command _ | .splice .. | .project .. => []

section

variable (cx : Context)

/-- A value of a type, as far as its parts have values. A stuck value has every type, and nothing is
asked of what a function or a quoted term holds. -/
inductive HasTy : Value → Ty → Prop
  | neutral {v ty} : v.isNeutral = true → HasTy v ty
  | scalar {l} : HasTy (.literal l) (.scalar l.scalar)
  | singleton {l} : HasTy (.literal l) (.singleton l)
  | array {kind θs} : (∀ θ ∈ θs, ∀ v, Gives cx θ v → HasTy v (.ofElement kind)) →
      HasTy (.array kind θs) (.array kind)
  | list {θs ty} : (∀ θ ∈ θs, ∀ v, Gives cx θ v → HasTy v ty) → HasTy (.list θs) (.list ty)
  | compound {fs tys} : (∀ key, Keyed.find? key tys ≠ none → Keyed.find? key fs ≠ none) →
      (∀ key ty θ, Keyed.find? key tys = some ty → Keyed.find? key fs = some θ →
        ∀ v, Gives cx θ v → HasTy v ty) → HasTy (.compound fs) (.compound tys)
  | ref {θ ty} : (∀ v, Gives cx θ v → HasTy v ty) → HasTy (.ref θ) (.ref ty)
  | tuple {θs tys} : θs.length = tys.length →
      (∀ e ∈ θs.zip tys, ∀ v, Gives cx e.1 v → HasTy v e.2) → HasTy (.tuple θs) (.tuple tys)
  | closure {p b ρ depth param result} : HasTy (.closure p b ρ depth) (.function param result)
  | quote {θ ty} : HasTy (.quote θ) (.code ty)
  | named {v name body} : cx.definitions.alias? name = some body → HasTy v body →
      HasTy v (.alias name)
  | union {v tys ty} : ty ∈ tys → HasTy v ty → HasTy v (.union tys)

/-- A value whose data can be forced to the end. -/
inductive Solid : Value → Prop
  | intro {v} : (∀ θ ∈ v.components, ∃ u, Gives cx θ u) →
      (∀ θ ∈ v.components, ∀ u, Gives cx θ u → Solid u) → Solid v

/-- A value without a stuck part. -/
inductive IsKnown : Value → Prop
  | intro {v} : v.isNeutral = false →
      (∀ θ ∈ v.components, ∀ u, Gives cx θ u → IsKnown u) → IsKnown v

mutual

/-- The second value is the first one with values in the place of stuck parts. -/
inductive Fills : Value → Value → Prop
  | stuck {v v'} : v.isNeutral = true → Solid cx v' → Fills v v'
  | literal {l} : Fills (.literal l) (.literal l)
  | array {kind θs θs'} : List.Forall₂ PartFills θs θs' → Fills (.array kind θs) (.array kind θs')
  | list {θs θs'} : List.Forall₂ PartFills θs θs' → Fills (.list θs) (.list θs')
  | compound {fs fs'} : fs.map (·.1) = fs'.map (·.1) →
      List.Forall₂ PartFills (fs.map (·.2)) (fs'.map (·.2)) → Fills (.compound fs) (.compound fs')
  | ref {θ θ'} : PartFills θ θ' → Fills (.ref θ) (.ref θ')
  | tuple {θs θs'} : List.Forall₂ PartFills θs θs' → Fills (.tuple θs) (.tuple θs')
  | closure {p b ρ depth p' b' ρ' depth'} :
      Fills (.closure p b ρ depth) (.closure p' b' ρ' depth')
  | quote {θ θ'} : Fills (.quote θ) (.quote θ')

/-- The second part is the first one, or its value is that of the first one with stuck parts
filled. -/
inductive PartFills : Thunk → Thunk → Prop
  | kept {θ} : PartFills θ θ
  | filled {θ θ' v v'} : Gives cx θ v → Gives cx θ' v' → Fills v v' → PartFills θ θ'

end

/-- A value on a store that is one by name. -/
def Pictures (s : Store) (u : Eval.Value) (v : Value) : Prop :=
  ∃ Φ q, Charted cx Φ q s ∧ Depicts Φ q v u

/-! ## What a pattern meets -/

/-- A value that can be tested by a pattern. -/
inductive Meets : Pattern → Value → Prop
  | neutral {p v} : v.isNeutral = true → Meets p v
  | var {info x v} : Meets (.var info x) v
  | wildcard {info v} : Meets (.wildcard info) v
  | hole {info v} : Meets (.hole info) v
  | int {info n m} : Meets (.int info n) (.literal (.int m))
  | range {info min max m} : Meets (.range info min max) (.literal (.int m))
  | list {info ps θs} : (∀ e ∈ ps.zip θs, ∀ v, Gives cx e.2 v → Meets e.1 v) →
      Meets (.list info ps) (.list θs)
  | tuple {info ps θs} : ps.length = θs.length →
      (∀ e ∈ ps.zip θs, ∀ v, Gives cx e.2 v → Meets e.1 v) → Meets (.tuple info ps) (.tuple θs)
  | compound {info fields fs θs} : partsAt? fs fields = some θs →
      (∀ e ∈ (fields.map (·.2)).zip θs, ∀ v, Gives cx e.2 v → Meets e.1 v) →
      Meets (.compound info fields) (.compound fs)

end

section

variable {cx : Context}

theorem HasTy.int {v : Value} {ty : Ty} (h : HasTy cx v ty) (hty : ty.IsInt) :
    v.isNeutral = true ∨ ∃ m, v = .literal (.int m) := by
  cases h with
  | neutral hv => exact .inl hv
  | @scalar l | @singleton l =>
    cases l with
    | int m => exact .inr ⟨m, rfl⟩
    | bool | byte | short | long | float | double | string => cases hty
  | array | list | compound | ref | tuple | closure | quote | named | union => cases hty

/-- Two lists zipped with a third one of full length, position by position. -/
theorem exists_mem_zip {α β γ : Type} : ∀ {xs : List α} {ys : List β} {zs : List γ} {x : α} {y : β},
    ys.length = zs.length → (x, y) ∈ xs.zip ys → ∃ z, (x, z) ∈ xs.zip zs ∧ (y, z) ∈ ys.zip zs
  | [], _, _, _, _, _, h => nomatch h
  | _ :: _, [], _, _, _, _, h => nomatch h
  | _ :: _, _ :: _, [], _, _, hlen, _ => nomatch hlen
  | _ :: _, _ :: _, z :: _, _, _, hlen, h => by
    rcases List.mem_cons.1 h with heq | h
    · cases heq
      exact ⟨z, List.mem_cons_self, List.mem_cons_self⟩
    · obtain ⟨z', hx, hy⟩ := exists_mem_zip (Nat.succ.inj hlen) h
      exact ⟨z', List.mem_cons_of_mem _ hx, List.mem_cons_of_mem _ hy⟩

/-- A record with a part for every key of a pattern has the parts of the pattern. -/
theorem exists_partsAt? {Q : Pattern → Thunk → Prop} {fs : List (String × Thunk)} :
    ∀ {fields : List (String × Pattern)},
      (∀ f ∈ fields, ∃ θ, Keyed.find? f.1 fs = some θ ∧ Q f.2 θ) →
        ∃ θs, partsAt? fs fields = some θs ∧ ∀ e ∈ (fields.map (·.2)).zip θs, Q e.1 e.2
  | [], _ => ⟨[], rfl, nofun⟩
  | f :: fields, h => by
    obtain ⟨θ, hθ, hQ⟩ := h f List.mem_cons_self
    obtain ⟨θs, hθs, hQs⟩ := exists_partsAt? fun g hg => h g (List.mem_cons_of_mem _ hg)
    refine ⟨θ :: θs, by simp only [partsAt?, hθ, hθs]; rfl, ?_⟩
    rw [List.map_cons, List.zip_cons_cons, List.forall_mem_cons]
    exact ⟨hQ, hQs⟩

/-- A pattern that fits a type meets the values of the type. -/
theorem Meets.of_fits {p : Pattern} {ty : Ty} (hp : p.Fits cx.definitions ty) :
    ∀ {v : Value}, HasTy cx v ty → Meets cx p v := by
  induction hp with
  | var => exact fun _ => .var
  | wildcard => exact fun _ => .wildcard
  | hole => exact fun _ => .hole
  | int hty =>
    intro v hv
    rcases hv.int hty with hv | ⟨m, rfl⟩
    · exact .neutral hv
    · exact .int
  | range hty =>
    intro v hv
    rcases hv.int hty with hv | ⟨m, rfl⟩
    · exact .neutral hv
    · exact .range
  | list _ ih =>
    intro v hv
    cases hv with
    | neutral hv => exact .neutral hv
    | list hparts =>
      refine .list fun e he w hw => ?_
      obtain ⟨hp, hθ⟩ := List.of_mem_zip he
      exact ih e.1 hp (hparts e.2 hθ w hw)
  | tuple _ _ ih =>
    intro v hv
    cases hv with
    | neutral hv => exact .neutral hv
    | tuple hlen' hparts =>
      refine .tuple (by omega) fun e he w hw => ?_
      obtain ⟨ty, hp, hθ⟩ := exists_mem_zip hlen' he
      exact ih (e.1, ty) hp (hparts (e.2, ty) hθ w hw)
  | @compound info fields tys hkeys _ ih =>
    intro v hv
    cases hv with
    | neutral hv => exact .neutral hv
    | @compound fs _ hfs hparts =>
      have hfields : ∀ f ∈ fields, ∃ θ, Keyed.find? f.1 fs = some θ ∧
          ∀ w, Gives cx θ w → Meets cx f.2 w := by
        intro f hf
        obtain ⟨ty, hty⟩ := Option.ne_none_iff_exists'.1 (hkeys f hf)
        obtain ⟨θ, hθ⟩ := Option.ne_none_iff_exists'.1 (hfs f.1 (hkeys f hf))
        exact ⟨θ, hθ, fun w hw => ih f hf ty hty (hparts f.1 ty θ hty hθ w hw)⟩
      obtain ⟨θs, hθs, hmeets⟩ :=
        exists_partsAt? (Q := fun p θ => ∀ w, Gives cx θ w → Meets cx p w) hfields
      exact .compound hθs hmeets
  | named hbody _ ih =>
    intro v hv
    cases hv with
    | neutral hv => exact .neutral hv
    | named hbody' hv =>
      cases hbody.symm.trans hbody'
      exact ih hv
  | union _ ih =>
    intro v hv
    cases hv with
    | neutral hv => exact .neutral hv
    | union hmem hv => exact ih _ hmem hv

/-! ## Patterns that match everything -/

mutual

theorem hasHole_of_irrefutable : ∀ {p : Pattern} {e : Error}, irrefutable p = .error e →
    p.hasHole = true
  | .hole _, _, _ => rfl
  | .var .., _, h | .wildcard _, _, h | .int .., _, h | .range .., _, h | .list .., _, h =>
    nomatch h
  | .tuple .., _, h => anyHole_of_allIrrefutable h
  | .compound .., _, h => anyFieldHole_of_allFieldsIrrefutable h

theorem anyHole_of_allIrrefutable : ∀ {ps : List Pattern} {e : Error},
    allIrrefutable ps = .error e → Pattern.anyHole ps = true
  | [], _, h => nomatch h
  | p :: ps, e, h => by
    rw [allIrrefutable] at h
    rw [Pattern.anyHole, Bool.or_eq_true]
    rcases hp : irrefutable p with e' | certain
    · exact .inl (hasHole_of_irrefutable hp)
    · rw [hp] at h
      cases certain with
      | true => exact .inr (anyHole_of_allIrrefutable h)
      | false => cases h

theorem anyFieldHole_of_allFieldsIrrefutable : ∀ {fields : List (String × Pattern)} {e : Error},
    allFieldsIrrefutable fields = .error e → Pattern.anyFieldHole fields = true
  | [], _, h => nomatch h
  | (_, p) :: rest, e, h => by
    rw [allFieldsIrrefutable] at h
    rw [Pattern.anyFieldHole, Bool.or_eq_true]
    rcases hp : irrefutable p with e' | certain
    · exact .inl (hasHole_of_irrefutable hp)
    · rw [hp] at h
      cases certain with
      | true => exact .inr (anyFieldHole_of_allFieldsIrrefutable h)
      | false => cases h

end

theorem anyFieldHole_eq : ∀ fields : List (String × Pattern),
    Pattern.anyFieldHole fields = Pattern.anyHole (fields.map (·.2)) := by
  intro fields
  induction fields with
  | nil => rfl
  | cons f rest ih => rw [Pattern.anyFieldHole, List.map_cons, Pattern.anyHole, ih]

theorem decideMatch_tuple {look : Thunk → Result Value} {info : Staged.PatternInfo}
    {ps : List Pattern} {θs : List Thunk} :
    decideMatch look (.tuple info ps) (.tuple θs) =
      if ps.length = θs.length then decideAll look true ps θs
      else Result.fail (atPattern (.tuple θs) (.tuple info ps)) :=
  rfl

theorem decideMatch_list {look : Thunk → Result Value} {info : Staged.PatternInfo}
    {ps : List Pattern} {θs : List Thunk} :
    decideMatch look (.list info ps) (.list θs) =
      if ps.length = θs.length then decideAll look true ps θs else .ok (some false) :=
  rfl

theorem decideMatch_compound {look : Thunk → Result Value} {info : Staged.PatternInfo}
    {fields : List (String × Pattern)} {fs : List (String × Thunk)} {θs : List Thunk}
    (h : partsAt? fs fields = some θs) :
    decideMatch look (.compound info fields) (.compound fs) =
      decideAll look true (fields.map (·.2)) θs := by
  rw [← decideFields_eq]
  unfold decideMatch
  simp only [Value.isNeutral, Bool.false_eq_true, if_false, h]

theorem decideAll_of_irrefutable {look : Thunk → Result Value} {decided : Bool} :
    ∀ {ps : List Pattern} (θs : List Thunk), allIrrefutable ps = .ok true →
      decideAll look decided ps θs = .ok (if decided then some true else none)
  | [], _, _ => rfl
  | _ :: _, [], _ => rfl
  | p :: ps, θ :: θs, h => by
    rw [allIrrefutable] at h
    rw [decideAll]
    rcases hp : irrefutable p with e | certain
    · rw [hp] at h
      cases h
    · rw [hp] at h
      cases certain with
      | true => exact decideAll_of_irrefutable θs h
      | false => cases h

theorem decideInt_neutral {p : Pattern} {accept : Int32 → Bool} {v : Value}
    (hv : v.isNeutral = true) : decideInt p accept v = .ok none := by
  cases v with
  | literal | array | list | compound | ref | tuple | closure | quote => cases hv
  | var | apply | cond | call | test | command | splice | project => rfl

/-- A verdict on a stuck value is that of a pattern that matches everything. -/
theorem irrefutable_of_neutral {look : Thunk → Result Value} {p : Pattern} {v : Value} {b : Bool}
    (hv : v.isNeutral = true) (h : decideMatch look p v = .ok (some b)) :
    irrefutable p = .ok true ∧ b = true := by
  have hstructured : ∀ q : Pattern, decideNeutral q = .ok (some b) →
      irrefutable q = .ok true ∧ b = true := by
    intro q hq
    unfold decideNeutral at hq
    rcases hq' : irrefutable q with e | certain
    · rw [hq'] at hq
      cases hq
    · rw [hq'] at hq
      cases certain with
      | true => cases hq; exact ⟨rfl, rfl⟩
      | false => cases hq
  cases p with
  | hole => cases h
  | var | wildcard => cases h; exact ⟨rfl, rfl⟩
  | int | range =>
    rw [decideMatch, decideInt_neutral hv] at h
    cases h
  | tuple | list | compound =>
    unfold decideMatch at h
    rw [if_pos hv] at h
    exact hstructured _ h

theorem decideMatch_of_irrefutable {look : Thunk → Result Value} {p : Pattern} {v : Value}
    (hmeets : Meets cx p v) (h : irrefutable p = .ok true) :
    decideMatch look p v = .ok (some true) := by
  cases hmeets with
  | hole | int | range | list => cases h
  | var | wildcard => rfl
  | tuple hlen =>
    rw [decideMatch_tuple, if_pos hlen]
    exact decideAll_of_irrefutable _ h
  | compound hparts =>
    rw [decideMatch_compound hparts]
    exact decideAll_of_irrefutable _ ((allFieldsIrrefutable_eq _).symm.trans h)
  | neutral hv =>
    cases p with
    | hole | int | range | list => cases h
    | var | wildcard => rfl
    | tuple | compound =>
      unfold decideMatch decideNeutral
      rw [if_pos hv, h]
      rfl

/-! ## Verdicts that are reached -/

theorem decideMatch_comesTo {n : Nat} {p : Pattern} {v : Value} {o : Option Bool}
    (h : decideMatch (force (evaluate cx n)) p v = .ok o) :
    ComesTo (fun k => decideMatch (force (evaluate cx k)) p v) (.ok o) := by
  refine ⟨n, fun k hk => ?_⟩
  dsimp only
  induction hk with
  | refl => exact h
  | @step m _ ih =>
    have hbelow := decideMatch_below (force_below (@evaluate_below cx m)) p v
    rw [hbelow.stays (ih.symm ▸ nofun), ih]

/-- Verdicts, one for each amount of fuel, that come to a verdict of some kind, or to the failure of
a hole of the pattern. -/
inductive Decides (hole : Bool) (y : Nat → Result (Option Bool)) (P : Option Bool → Prop) : Prop
  | verdict {o} : ComesTo y (.ok o) → P o → Decides hole y P
  | hole : hole = true → ComesTo y (.error (.failed .unexpectedHole)) → Decides hole y P

namespace Decides

variable {hole hole' : Bool} {y : Nat → Result (Option Bool)} {P Q : Option Bool → Prop}

theorem ret {o : Option Bool} (h : P o) : Decides hole (fun _ => .ok o) P := .verdict (.const _) h

theorem mono (h : Decides hole y P) (hhole : hole = true → hole' = true) (hP : ∀ o, P o → Q o) :
    Decides hole' y Q := by
  cases h with
  | verdict hy ho => exact .verdict hy (hP _ ho)
  | hole hh hy => exact .hole (hhole hh) hy

/-- What is known of the verdict that is reached. -/
theorem of_comesTo (h : Decides hole y P) (hP : ∀ o, ComesTo y (.ok o) → Q o) :
    Decides hole y Q := by
  cases h with
  | verdict hy _ => exact .verdict hy (hP _ hy)
  | hole hh hy => exact .hole hh hy

theorem bind {g : Nat → Option Bool → Result (Option Bool)} (h : Decides hole y P)
    (hhole : hole = true → hole' = true)
    (hg : ∀ o, P o → Decides hole' (fun k => g k o) Q) :
    Decides hole' (fun k => y k >>= g k) Q := by
  cases h with
  | hole hh hy => exact .hole (hhole hh) hy.bind_error
  | verdict hy ho =>
    cases hg _ ho with
    | verdict hz hQ => exact .verdict (hy.bind hz) hQ
    | hole hh hz => exact .hole hh (hy.bind hz)

theorem look {θ : Thunk} {v : Value} {g : Nat → Value → Result (Option Bool)}
    (hθ : Gives cx θ v) (hg : Decides hole (fun k => g k v) P) :
    Decides hole (fun k => force (evaluate cx k) θ >>= g k) P := by
  obtain ⟨n, hn⟩ := hθ
  have hv := force_comesTo hn nofun
  cases hg with
  | verdict hz hQ => exact .verdict (hv.bind hz) hQ
  | hole hh hz => exact .hole hh (hv.bind hz)

theorem irrefutable {p : Pattern} {g : Nat → Bool → Result (Option Bool)}
    (hp : p.hasHole = true → hole = true)
    (hg : ∀ certain, irrefutable p = .ok certain → Decides hole (fun k => g k certain) P) :
    Decides hole (fun k => Result.ofExcept (irrefutable p) >>= g k) P := by
  rcases h : Eval.irrefutable p with e | certain
  · cases irrefutable_error h
    exact .hole (hp (hasHole_of_irrefutable h)) (.const _)
  · exact hg certain h

end Decides

/-! ## Several parts -/

theorem hasHole_head {p : Pattern} {ps : List Pattern} (h : p.hasHole = true) :
    Pattern.anyHole (p :: ps) = true := by
  rw [Pattern.anyHole, h, Bool.true_or]

theorem anyHole_tail {p : Pattern} {ps : List Pattern} (h : Pattern.anyHole ps = true) :
    Pattern.anyHole (p :: ps) = true := by
  rw [Pattern.anyHole, h, Bool.or_true]

/-- Once a part is undecided, the parts together do not match for certain. -/
theorem decideAll_false_ne_true {look : Thunk → Result Value} {ps : List Pattern}
    {θs : List Thunk} : decideAll look false ps θs ≠ .ok (some true) := by
  induction ps generalizing θs with
  | nil => nofun
  | cons p ps ih =>
    cases θs with
    | nil => nofun
    | cons θ θs =>
      unfold decideAll
      intro h
      obtain ⟨certain, -, h⟩ := Except.bind_ok.1 h
      cases certain with
      | true => exact ih h
      | false =>
        obtain ⟨v, -, h⟩ := Except.bind_ok.1 h
        obtain ⟨o, -, h⟩ := Except.bind_ok.1 h
        cases o with
        | none => exact ih h
        | some verdict =>
          cases verdict with
          | false => cases h
          | true => exact ih h

/-- Parts that can be forced and tested have a verdict together. -/
theorem decideAll_decides : ∀ {ps : List Pattern} {θs : List Thunk} (decided : Bool),
    (∀ e ∈ ps.zip θs, ∃ v, Gives cx e.2 v ∧ Decides e.1.hasHole
      (fun k => decideMatch (force (evaluate cx k)) e.1 v) fun _ => True) →
      Decides (Pattern.anyHole ps) (fun k => decideAll (force (evaluate cx k)) decided ps θs)
        fun _ => True
  | [], _, _, _ | _ :: _, [], _, _ => .ret True.intro
  | p :: ps, θ :: θs, decided, h => by
    rw [List.zip_cons_cons, List.forall_mem_cons] at h
    obtain ⟨⟨v, hv, hp⟩, hps⟩ := h
    have hrest : ∀ decided, Decides (Pattern.anyHole (p :: ps))
        (fun k => decideAll (force (evaluate cx k)) decided ps θs) fun _ => True :=
      fun decided => (decideAll_decides decided hps).mono anyHole_tail fun _ => id
    unfold decideAll
    refine Decides.irrefutable hasHole_head fun certain _ => ?_
    cases certain with
    | true => exact hrest decided
    | false =>
      refine Decides.look hv (hp.bind hasHole_head fun o _ => ?_)
      cases o with
      | none => exact hrest false
      | some verdict =>
        cases verdict with
        | false => exact .ret True.intro
        | true => exact hrest decided

/-- A verdict that keeps what another one says. -/
def Keeps (o o' : Option Bool) : Prop := ∀ b, o = some b → o' = some b

/-- Of parts that end decided the verdict is that they match. -/
theorem Keeps.finish {decided decided' : Bool} (h : decided = true → decided' = true) :
    Keeps (if decided then some true else none) (if decided' then some true else none) := by
  intro b hb
  cases decided with
  | true => rw [h rfl]; exact hb
  | false => cases hb

/-- A part for which another one stands: where the test of the first one has an outcome, that of the
second one has one which keeps it. -/
def Stable (cx : Context) (p : Pattern) (θ θ' : Thunk) : Prop :=
  ∀ n v o, force (evaluate cx n) θ = .ok v → decideMatch (force (evaluate cx n)) p v = .ok o →
    ∃ v', Gives cx θ' v' ∧
      Decides p.hasHole (fun k => decideMatch (force (evaluate cx k)) p v') (Keeps o)

/-- Parts for which others stand. -/
inductive AllStable (cx : Context) : List Pattern → List Thunk → List Thunk → Prop
  | noPattern {θs θs'} : AllStable cx [] θs θs'
  | noPart {ps} : AllStable cx ps [] []
  | cons {p ps θ θs θ' θs'} : Stable cx p θ θ' → AllStable cx ps θs θs' →
      AllStable cx (p :: ps) (θ :: θs) (θ' :: θs')

/-- The parts together keep their verdict. What stands for the first parts can be decided where they
are not, but not the other way round. -/
theorem decideAll_stable {n : Nat} {ps : List Pattern} {θs θs' : List Thunk}
    (h : AllStable cx ps θs θs') : ∀ {decided decided' : Bool} {o : Option Bool},
      (decided = true → decided' = true) →
        decideAll (force (evaluate cx n)) decided ps θs = .ok o →
          Decides (Pattern.anyHole ps)
            (fun k => decideAll (force (evaluate cx k)) decided' ps θs') (Keeps o) := by
  induction h with
  | noPattern =>
    intro decided decided' o hle ho
    cases ho
    exact .ret (.finish hle)
  | @noPart ps =>
    intro decided decided' o hle ho
    cases ps with
    | nil | cons =>
      cases ho
      exact .ret (.finish hle)
  | @cons p ps θ θs θ' θs' hp _ ih =>
    intro decided decided' o hle ho
    unfold decideAll at ho ⊢
    obtain ⟨certain, hcertain, ho⟩ := Except.bind_ok.1 ho
    refine Decides.irrefutable hasHole_head fun certain' hcertain' => ?_
    rw [hcertain'] at hcertain
    cases hcertain
    cases certain with
    | true => exact (ih hle ho).mono anyHole_tail fun _ => id
    | false =>
      obtain ⟨v, hv, ho⟩ := Except.bind_ok.1 ho
      obtain ⟨o₁, ho₁, ho⟩ := Except.bind_ok.1 ho
      obtain ⟨v', hv', hdecides⟩ := hp n v o₁ hv ho₁
      refine Decides.look hv' (hdecides.bind hasHole_head fun o₁' hkeeps => ?_)
      cases o₁ with
      | some b =>
        cases hkeeps b rfl
        cases b with
        | false =>
          cases ho
          exact .ret fun _ => id
        | true => exact (ih hle ho).mono anyHole_tail fun _ => id
      | none =>
        have hrest : decideAll (force (evaluate cx n)) false ps θs = .ok o := ho
        cases o₁' with
        | none => exact (ih id hrest).mono anyHole_tail fun _ => id
        | some b' =>
          cases b' with
          | false =>
            refine .ret fun b hb => ?_
            cases b with
            | false => rfl
            | true => exact absurd (hb ▸ hrest) decideAll_false_ne_true
          | true => exact (ih (absurd · Bool.false_ne_true) hrest).mono anyHole_tail fun _ => id

/-- Parts that are tested without being left undecided are not undecided together. -/
theorem decideAll_ne_none {look : Thunk → Result Value} : ∀ {ps : List Pattern} {θs : List Thunk},
    (∀ e ∈ ps.zip θs, ∀ v, look e.2 = .ok v → decideMatch look e.1 v ≠ .ok none) →
      decideAll look true ps θs ≠ .ok none
  | [], _, _ | _ :: _, [], _ => nofun
  | p :: ps, θ :: θs, h => by
    rw [List.zip_cons_cons, List.forall_mem_cons] at h
    unfold decideAll
    intro ho
    obtain ⟨certain, -, ho⟩ := Except.bind_ok.1 ho
    cases certain with
    | true => exact decideAll_ne_none h.2 ho
    | false =>
      obtain ⟨v, hv, ho⟩ := Except.bind_ok.1 ho
      obtain ⟨o, hdecided, ho⟩ := Except.bind_ok.1 ho
      cases o with
      | none => exact h.1 v hv hdecided
      | some b =>
        cases b with
        | false => cases ho
        | true => exact decideAll_ne_none h.2 ho

/-! ## Values and patterns -/

/-- The parts at the keys of a pattern are among the components of the record. -/
theorem mem_of_partsAt? {fs : List (String × Thunk)} : ∀ {fields : List (String × Pattern)}
    {θs : List Thunk}, partsAt? fs fields = some θs → ∀ θ ∈ θs, θ ∈ fs.map (·.2)
  | [], _, h => by cases h; nofun
  | f :: fields, θs, h => by
    unfold partsAt? at h
    obtain ⟨θ, hθ, h⟩ := Option.bind_eq_some_iff.1 h
    obtain ⟨θs', hθs', h⟩ := Option.bind_eq_some_iff.1 h
    cases h
    rw [List.forall_mem_cons]
    exact ⟨List.mem_map_of_mem (Keyed.mem_of_find? hθ), mem_of_partsAt? hθs'⟩

/-- A value without stuck parts is never left undecided. -/
theorem decideMatch_ne_none {p : Pattern} {v : Value} (hmeets : Meets cx p v) (h : IsKnown cx v)
    (n : Nat) : decideMatch (force (evaluate cx n)) p v ≠ .ok none := by
  induction hmeets with
  | neutral hv => cases h with | intro hknown => rw [hknown] at hv; cases hv
  | var | wildcard | hole | int | range => nofun
  | list _ ih =>
    cases h with
    | intro _ hparts =>
      rw [decideMatch_list]
      split
      · refine decideAll_ne_none fun e he w hw => ?_
        exact ih e he w ⟨n, hw⟩ (hparts e.2 (List.of_mem_zip he).2 w ⟨n, hw⟩)
      · nofun
  | tuple hlen _ ih =>
    cases h with
    | intro _ hparts =>
      rw [decideMatch_tuple, if_pos hlen]
      refine decideAll_ne_none fun e he w hw => ?_
      exact ih e he w ⟨n, hw⟩ (hparts e.2 (List.of_mem_zip he).2 w ⟨n, hw⟩)
  | compound hθs _ ih =>
    cases h with
    | intro _ hparts =>
      rw [decideMatch_compound hθs]
      refine decideAll_ne_none fun e he w hw => ?_
      have hmem := mem_of_partsAt? hθs e.2 (List.of_mem_zip he).2
      exact ih e he w ⟨n, hw⟩ (hparts e.2 hmem w ⟨n, hw⟩)

theorem Decides.neutral (p : Pattern) {v : Value} (hv : v.isNeutral = true) :
    Decides p.hasHole (fun k => decideMatch (force (evaluate cx k)) p v) fun _ => True := by
  have hstructured : ∀ q : Pattern, Decides q.hasHole (fun _ => decideNeutral q) fun _ => True := by
    intro q
    unfold decideNeutral
    refine .irrefutable id fun certain _ => ?_
    cases certain <;> exact .ret True.intro
  cases p with
  | hole => exact .hole rfl (.const _)
  | var | wildcard => exact .ret True.intro
  | int | range =>
    unfold decideMatch
    simp only [decideInt_neutral hv]
    exact .ret True.intro
  | tuple | list | compound =>
    unfold decideMatch
    simp only [if_pos hv]
    exact hstructured _

/-- A value of the type of a pattern that can be forced can be tested. -/
theorem decideMatch_decides {p : Pattern} {v : Value} (hmeets : Meets cx p v) (h : Solid cx v) :
    Decides p.hasHole (fun k => decideMatch (force (evaluate cx k)) p v) fun _ => True := by
  induction hmeets with
  | neutral hv => exact .neutral _ hv
  | var | wildcard | int | range => exact .ret True.intro
  | hole => exact .hole rfl (.const _)
  | list _ ih =>
    cases h with
    | intro hgives hsolid =>
      simp only [decideMatch_list]
      split
      · refine decideAll_decides true fun e he => ?_
        have hmem := (List.of_mem_zip he).2
        obtain ⟨w, hw⟩ := hgives e.2 hmem
        exact ⟨w, hw, ih e he w hw (hsolid e.2 hmem w hw)⟩
      · exact .ret True.intro
  | tuple hlen _ ih =>
    cases h with
    | intro hgives hsolid =>
      simp only [decideMatch_tuple, if_pos hlen]
      refine decideAll_decides true fun e he => ?_
      have hmem := (List.of_mem_zip he).2
      obtain ⟨w, hw⟩ := hgives e.2 hmem
      exact ⟨w, hw, ih e he w hw (hsolid e.2 hmem w hw)⟩
  | @compound info fields fs θs hθs _ ih =>
    cases h with
    | intro hgives hsolid =>
      rw [Pattern.hasHole, anyFieldHole_eq]
      simp only [decideMatch_compound hθs]
      refine decideAll_decides true fun e he => ?_
      have hmem := mem_of_partsAt? hθs e.2 (List.of_mem_zip he).2
      obtain ⟨w, hw⟩ := hgives e.2 hmem
      exact ⟨w, hw, ih e he w hw (hsolid e.2 hmem w hw)⟩

/-! ## Filling in stuck parts -/

/-- A stuck value with a verdict is at a pattern that matches everything, so what is filled in for
it has the same verdict. -/
theorem Decides.of_stuck {p : Pattern} {v v' : Value} {n : Nat} {o : Option Bool}
    (hmeets : Meets cx p v') (hsolid : Solid cx v') (hv : v.isNeutral = true)
    (h : decideMatch (force (evaluate cx n)) p v = .ok o) :
    Decides p.hasHole (fun k => decideMatch (force (evaluate cx k)) p v') (Keeps o) := by
  cases o with
  | none => exact (decideMatch_decides hmeets hsolid).mono id fun _ _ => nofun
  | some b =>
    obtain ⟨hp, rfl⟩ := irrefutable_of_neutral hv h
    exact .verdict ⟨0, fun _ _ => decideMatch_of_irrefutable hmeets hp⟩ fun _ => id

/-- A pattern and a value such that filling in for the value keeps what the test says. -/
def KeepsFilled (cx : Context) (p : Pattern) (v' : Value) : Prop :=
  ∀ v n o, Fills cx v v' → decideMatch (force (evaluate cx n)) p v = .ok o →
    Decides p.hasHole (fun k => decideMatch (force (evaluate cx k)) p v') (Keeps o)

theorem Stable.of_fills {p : Pattern} {θ θ' : Thunk} (h : PartFills cx θ θ')
    (hp : ∀ v', Gives cx θ' v' → KeepsFilled cx p v') : Stable cx p θ θ' := by
  intro n v o hv ho
  cases h with
  | kept => exact ⟨v, ⟨n, hv⟩, .verdict (decideMatch_comesTo ho) fun _ => id⟩
  | @filled _ _ w w' hw hw' hfills =>
    obtain rfl := hw.unique hv
    exact ⟨w', hw', hp w' hw' w n o hfills ho⟩

theorem AllStable.of_fills {θs θs' : List Thunk} (h : List.Forall₂ (PartFills cx) θs θs') :
    ∀ {ps : List Pattern}, (∀ e ∈ ps.zip θs', ∀ v', Gives cx e.2 v' → KeepsFilled cx e.1 v') →
      AllStable cx ps θs θs' := by
  induction h with
  | nil => exact fun _ => .noPart
  | cons hθ _ ih =>
    intro ps hps
    cases ps with
    | nil => exact .noPattern
    | cons p ps =>
      rw [List.zip_cons_cons, List.forall_mem_cons] at hps
      exact .cons (.of_fills hθ hps.1) (ih hps.2)

/-- Records with the same keys and one list of parts for the other, entry by entry. -/
theorem forall₂_entries {R : Thunk → Thunk → Prop} : ∀ {fs fs' : List (String × Thunk)},
    fs.map (·.1) = fs'.map (·.1) → List.Forall₂ R (fs.map (·.2)) (fs'.map (·.2)) →
      List.Forall₂ (fun e f => e.1 = f.1 ∧ R e.2 f.2) fs fs'
  | [], [], _, _ => .nil
  | _ :: _, _ :: _, hkeys, .cons hθ hθs =>
    .cons ⟨(List.cons.inj hkeys).1, hθ⟩ (forall₂_entries (List.cons.inj hkeys).2 hθs)

/-- Filling in stuck parts keeps the verdict of a test. -/
theorem keepsFilled_of_meets {p : Pattern} {v' : Value} (hmeets : Meets cx p v') :
    KeepsFilled cx p v' := by
  induction hmeets with
  | neutral hv' =>
    intro v n o hfills h
    cases hfills with
    | stuck hv hsolid => exact .of_stuck (.neutral hv') hsolid hv h
    | literal | array | list | compound | ref | tuple | closure | quote => cases hv'
  | var | wildcard =>
    intro v n o _ h
    cases h
    exact .ret fun _ => id
  | hole => exact fun _ _ _ _ h => nomatch h
  | int =>
    intro v n o hfills h
    cases hfills with
    | stuck hv hsolid => exact .of_stuck .int hsolid hv h
    | literal => exact .verdict ⟨0, fun _ _ => h⟩ fun _ => id
  | range =>
    intro v n o hfills h
    cases hfills with
    | stuck hv hsolid => exact .of_stuck .range hsolid hv h
    | literal => exact .verdict ⟨0, fun _ _ => h⟩ fun _ => id
  | list hparts ih =>
    intro v n o hfills h
    cases hfills with
    | stuck hv hsolid => exact .of_stuck (.list hparts) hsolid hv h
    | list hθs =>
      rw [decideMatch_list, hθs.length_eq] at h
      simp only [decideMatch_list]
      split
      · next hlen =>
        rw [if_pos hlen] at h
        exact decideAll_stable (.of_fills hθs ih) id h
      · next hlen =>
        rw [if_neg hlen] at h
        cases h
        exact .ret fun _ => id
  | tuple hlen hparts ih =>
    intro v n o hfills h
    cases hfills with
    | stuck hv hsolid => exact .of_stuck (.tuple hlen hparts) hsolid hv h
    | tuple hθs =>
      rw [decideMatch_tuple, hθs.length_eq, if_pos hlen] at h
      simp only [decideMatch_tuple, if_pos hlen]
      exact decideAll_stable (.of_fills hθs ih) id h
  | @compound info fields fs' θs' hθs' hparts ih =>
    intro v n o hfills h
    cases hfills with
    | stuck hv hsolid => exact .of_stuck (.compound hθs' hparts) hsolid hv h
    | @compound fs _ hkeys hfs =>
      have hrel := partsAt?_rel (forall₂_entries hkeys hfs) fields
      rw [hθs'] at hrel
      obtain ⟨θs, hθs, hfilled⟩ : ∃ θs, partsAt? fs fields = some θs ∧
          List.Forall₂ (PartFills cx) θs θs' := by
        revert hrel
        cases partsAt? fs fields <;> intro hrel <;> cases hrel
        next hfilled => exact ⟨_, rfl, hfilled⟩
      rw [decideMatch_compound hθs] at h
      rw [Pattern.hasHole, anyFieldHole_eq]
      simp only [decideMatch_compound hθs']
      exact decideAll_stable (.of_fills hfilled ih) id h

end

end ByName

/-! ## On the store -/

/-- With enough fuel the test of a value on a store has a verdict of some kind, or it stops at a
hole of the pattern. -/
def Answers (cx : Context) (p : Pattern) (v : Value) (s : Store) (P : Option Bool → Prop) : Prop :=
  (∃ o, P o ∧ ∃ N, ∀ k, N ≤ k → verdict cx k p v s = .ok o) ∨
    p.hasHole = true ∧ ∃ N, ∀ k, N ≤ k → verdict cx k p v s = .error (.failed .unexpectedHole)

section

open ByName

variable {cx : Context} {s : Store} {u : Value} {v : ByName.Value} {p : Pattern}

/-- A verdict on a store is what the tests by name come to. -/
theorem comesTo_of_verdict (h : Pictures cx s u v) {n : Nat} {o : Option Bool}
    (hverdict : verdict cx n p u s = .ok o) :
    ComesTo (fun k => ByName.decideMatch (ByName.force (ByName.evaluate cx k)) p v) (.ok o) := by
  obtain ⟨Φ, q, hs, hu⟩ := h
  have htracks := decideMatch_tracks (@evaluate_byNeed cx n).force p hu
  have hends : verdict cx n p u s ≠ .error .outOfFuel := by rw [hverdict]; nofun
  rw [← hverdict]
  exact htracks.comesTo_of_byNeed hs hends

theorem verdict_of_comesTo (h : Pictures cx s u v) {r : Result (Option Bool)}
    (hr : ComesTo (fun k => ByName.decideMatch (ByName.force (ByName.evaluate cx k)) p v) r)
    (hends : r ≠ .error .outOfFuel) : ∃ N, ∀ k, N ≤ k → verdict cx k p u s = r := by
  obtain ⟨Φ, q, hs, hu⟩ := h
  obtain ⟨N, hN⟩ := hr
  refine ⟨N, fun k hk => ?_⟩
  have htracks := decideMatch_tracks (@evaluate_byName cx k).force p hu
  have hk : ByName.decideMatch (ByName.force (ByName.evaluate cx k)) p v = r := hN k hk
  rw [← hk] at hends ⊢
  exact htracks.eq_of_byName hs hends

theorem answers_of_decides (h : Pictures cx s u v) {P : Option Bool → Prop}
    (hdecides : Decides p.hasHole
      (fun k => ByName.decideMatch (ByName.force (ByName.evaluate cx k)) p v) P) :
    Answers cx p u s P := by
  cases hdecides with
  | verdict hy ho => exact .inl ⟨_, ho, verdict_of_comesTo h hy nofun⟩
  | hole hhole hy => exact .inr ⟨hhole, verdict_of_comesTo h hy nofun⟩

/-- A test that has a verdict on a value has the same verdict on what becomes of the value when
stuck parts of it are filled in, and a value without stuck parts is not left undecided. A pattern
with a hole can be stopped at it instead. -/
theorem verdict_stays {ty : Ty} (hp : p.Fits cx.definitions ty) {v' : ByName.Value}
    (hv' : HasTy cx v' ty) (hfills : Fills cx v v') (hu : Pictures cx s u v) {s' : Store}
    {u' : Value} (hu' : Pictures cx s' u' v') :
    (∀ n b, verdict cx n p u s = .ok (some b) → Answers cx p u' s' (· = some b)) ∧
      (IsKnown cx v' → (∀ n, verdict cx n p u' s' ≠ .ok none) ∧
        (Solid cx v' → Answers cx p u' s' (· ≠ none))) := by
  have hmeets : Meets cx p v' := .of_fits hp hv'
  refine ⟨fun n b h => ?_, fun hknown => ⟨fun n h => ?_, fun hsolid => ?_⟩⟩
  · obtain ⟨N, hN⟩ := comesTo_of_verdict hu h
    have hkeeps := keepsFilled_of_meets hmeets v N _ hfills (hN N le_rfl)
    exact answers_of_decides hu' (hkeeps.mono id fun _ ho => ho b rfl)
  · obtain ⟨N, hN⟩ := comesTo_of_verdict hu' h
    exact decideMatch_ne_none hmeets hknown N (hN N le_rfl)
  · refine answers_of_decides hu' ((decideMatch_decides hmeets hsolid).of_comesTo ?_)
    rintro _ ⟨N, hN⟩ rfl
    exact decideMatch_ne_none hmeets hknown N (hN N le_rfl)

end

/-! ### A pair that is stuck beside a number -/

namespace ByName

/-- The type of a pair of numbers beside a number. -/
def pairTy : Ty := .tuple [.tuple [.int, .int], .int]

/-- A pattern for values of this type: `((1, q), 2)`. -/
def pairPattern (q : Pattern) : Pattern :=
  .tuple (Pattern.plain pairTy) [.tuple (Pattern.plain (.tuple [.int, .int]))
    [.int (Pattern.plain .int) 1, q], .int (Pattern.plain .int) 2]

/-- A variable that stands for itself. -/
def unknown : Value := .var ⟨"x", 0⟩

/-- The value `(x, 3)`. -/
def stuckPair : Value := .tuple [.known unknown, .known (.literal (.int 3))]

/-- The value `(1, x)`. -/
def halfKnown : Value := .tuple [.known (.literal (.int 1)), .known unknown]

/-- The value `((1, x), 3)`. -/
def filledPair : Value := .tuple [.known halfKnown, .known (.literal (.int 3))]

/-- The cells of `x`, `3`, `1` and `(1, x)`. -/
def pairStore : Store :=
  ⟨#[.forced (.var ⟨"x", 0⟩), .forced (.literal (.int 3)), .forced (.literal (.int 1)),
    .forced (.tuple [2, 0])]⟩

/-- What the cells stand for. -/
def pairChart : Chart
  | 0 => some (.known unknown, 0)
  | 1 => some (.known (.literal (.int 3)), 0)
  | 2 => some (.known (.literal (.int 1)), 0)
  | 3 => some (.known halfKnown, 1)
  | _ => none

variable {cx : Context}

theorem charted_pairStore : Charted cx pairChart 2 pairStore := by
  intro c θ r hc
  match c, hc with
  | 0, hc => cases hc; exact ⟨by decide, fun _ => ⟨_, ⟨0, rfl⟩, .var⟩⟩
  | 1, hc => cases hc; exact ⟨by decide, fun _ => ⟨_, ⟨0, rfl⟩, .literal⟩⟩
  | 2, hc => cases hc; exact ⟨by decide, fun _ => ⟨_, ⟨0, rfl⟩, .literal⟩⟩
  | 3, hc =>
    cases hc
    refine ⟨by decide, fun _ => ⟨_, ⟨0, rfl⟩, .tuple ?_⟩⟩
    exact .cons ⟨0, by norm_num, rfl⟩ (.cons ⟨0, by norm_num, rfl⟩ .nil)
  | _ + 4, hc => cases hc

theorem pictures_stuckPair : Pictures cx pairStore (.tuple [0, 1]) stuckPair :=
  ⟨pairChart, 2, charted_pairStore,
    .tuple (.cons ⟨0, by norm_num, rfl⟩ (.cons ⟨0, by norm_num, rfl⟩ .nil))⟩

theorem pictures_filledPair : Pictures cx pairStore (.tuple [3, 1]) filledPair :=
  ⟨pairChart, 2, charted_pairStore,
    .tuple (.cons ⟨1, by norm_num, rfl⟩ (.cons ⟨0, by norm_num, rfl⟩ .nil))⟩

/-- Two thunks that are known have the types of their values. -/
theorem hasTy_pair {v w : Value} {σ τ : Ty} (hv : HasTy cx v σ) (hw : HasTy cx w τ) :
    HasTy cx (.tuple [.known v, .known w]) (.tuple [σ, τ]) := by
  refine .tuple rfl ?_
  rw [List.zip_cons_cons, List.forall_mem_cons, List.zip_cons_cons, List.forall_mem_cons]
  refine ⟨?_, ?_, nofun⟩
  · rintro u ⟨n, hu⟩
    cases hu
    exact hv
  · rintro u ⟨n, hu⟩
    cases hu
    exact hw

theorem hasTy_stuckPair : HasTy cx stuckPair pairTy := hasTy_pair (.neutral rfl) .scalar

theorem hasTy_filledPair : HasTy cx filledPair pairTy :=
  hasTy_pair (hasTy_pair .scalar (.neutral rfl)) .scalar

/-- The values of known thunks are solid with them. -/
theorem solid_halfKnown : Solid cx halfKnown := by
  have hleaf : ∀ {v : Value}, v.components = [] → Solid cx v := by
    intro v hv
    refine .intro ?_ ?_ <;> · rw [hv]; nofun
  refine .intro ?_ ?_
  · exact List.forall_mem_cons.2 ⟨⟨_, 0, rfl⟩, List.forall_mem_cons.2 ⟨⟨_, 0, rfl⟩, nofun⟩⟩
  · refine List.forall_mem_cons.2 ⟨?_, List.forall_mem_cons.2 ⟨?_, nofun⟩⟩ <;>
      · rintro u ⟨n, hu⟩
        cases hu
        exact hleaf rfl

theorem fills_stuckPair : Fills cx stuckPair filledPair :=
  .tuple (.cons (.filled ⟨0, rfl⟩ ⟨0, rfl⟩ (.stuck rfl solid_halfKnown)) (.cons .kept .nil))

theorem fits_pairPattern {table : Table} {q : Pattern} (hq : q.Fits table .int) :
    (pairPattern q).Fits table pairTy := by
  refine .tuple rfl (List.forall_mem_cons.2 ⟨.tuple rfl ?_, List.forall_mem_cons.2 ⟨?_, nofun⟩⟩)
  · exact List.forall_mem_cons.2 ⟨.int .int, List.forall_mem_cons.2 ⟨hq, nofun⟩⟩
  · exact .int .int

end ByName

open ByName in
/-- The number beside the pair does not match, whatever the pair is. -/
theorem verdict_stays_pair :
    Answers ⟨⟨[], by decide⟩, [], 0⟩ (pairPattern (.wildcard (Pattern.plain .int))) (.tuple [3, 1])
      pairStore (· = some false) :=
  (verdict_stays (fits_pairPattern .wildcard) hasTy_filledPair fills_stuckPair pictures_stuckPair
    pictures_filledPair).1 1 false rfl

open ByName in
/-- A hole in the pattern of the pair: the test passes over the pair that is stuck, and it stops at
the hole once the pair is known in part. -/
theorem verdict_changes_at_hole :
    let cx : Context := ⟨⟨[], by decide⟩, [], 0⟩
    let p := pairPattern (.hole (Pattern.plain .int))
    p.Fits cx.definitions pairTy ∧ HasTy cx stuckPair pairTy ∧ HasTy cx filledPair pairTy ∧
      Fills cx stuckPair filledPair ∧ Pictures cx pairStore (.tuple [0, 1]) stuckPair ∧
      Pictures cx pairStore (.tuple [3, 1]) filledPair ∧
      verdict cx 1 p (.tuple [0, 1]) pairStore = .ok (some false) ∧
      ∀ n, verdict cx n p (.tuple [3, 1]) pairStore = .error (.failed .unexpectedHole) :=
  ⟨fits_pairPattern .hole, hasTy_stuckPair, hasTy_filledPair, fills_stuckPair, pictures_stuckPair,
    pictures_filledPair, rfl, fun _ => rfl⟩

end Eval

end Stagecraft
