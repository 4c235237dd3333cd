import Mathlib.Data.Fintype.Card
import Mathlib.Data.Set.Finite.Basic
import Stagecraft.Proofs.NormalForms
import Stagecraft.Proofs.Scoping

/-!
# Normalization without local functions terminates

A program without local functions repeats itself only by calling definitions, and the limit on
unfolding bounds how deep calls nest. Read-back goes into the parts of a value; it comes back to the
same value only where a union offers alternatives, so it needs that no alias reaches itself through
aliases and unions.

A value is settled if looking at its parts, and at the parts of these, comes to an end. Evaluation
by name gives settled values (`evaluate_ends`); the induction is on what the limit leaves of the
depth of unfolding and, inside, on the term. A settled value reads back at every type
(`readShape_ends`); the induction is on the value and, inside, on the alternatives of unions.
-/

namespace Stagecraft

open Staged (Ty Pattern Term Table)

/-! ## Programs without local functions, aliases without cycles -/

namespace Staged

/-- A term that is a local function. -/
def Term.isLambda : Term → Bool
  | .lambda .. => true
  | _ => false

/-- Whether no local function occurs in a term. -/
def Term.isFirstOrder (t : Term) : Bool := t.everywhere fun e => !e.isLambda

/-- Whether no local function occurs in the body of a function of the table. -/
def Table.isFirstOrder (table : Table) : Bool :=
  table.definitions.all fun
    | .function f => f.body.isFirstOrder
    | .resource _ | .alias _ => true

theorem Table.isFirstOrder_function {table : Table} (h : table.isFirstOrder = true) {f : Function}
    (hf : .function f ∈ table.definitions) : f.body.isFirstOrder = true :=
  List.all_eq_true.1 h _ hf

mutual

/-- The aliases that a type is made of through unions alone. -/
def Ty.aliases : Ty → List DefName
  | .alias name => [name]
  | .union es => aliasesOfAll es
  | _ => []

/-- The aliases that several types are made of through unions alone. -/
def Ty.aliasesOfAll : List Ty → List DefName
  | [] => []
  | t :: ts => t.aliases ++ aliasesOfAll ts

end

/-- The body of the first alias is made of the second one through unions alone. -/
def Table.Expands (table : Table) (a b : DefName) : Prop :=
  ∃ body, table.alias? a = some body ∧ b ∈ body.aliases

theorem Table.exists_mem_of_alias? {table : Table} {name : DefName} {body : Ty}
    (h : table.alias? name = some body) :
    ∃ marks, .alias ⟨marks, name, body⟩ ∈ table.definitions := by
  unfold alias? at h
  split at h
  · next a hfind =>
    cases h
    have hname := List.find?_some hfind
    obtain rfl : a.name = name := of_decide_eq_true hname
    exact ⟨a.marks, List.mem_of_find?_eq_some hfind⟩
  · cases h

theorem Table.mem_of_alias? {table : Table} {name : DefName} {body : Ty}
    (h : table.alias? name = some body) : name ∈ table.definitions.map Definition.name := by
  obtain ⟨marks, hmem⟩ := exists_mem_of_alias? h
  exact List.mem_map_of_mem hmem

/-- A relation that only leads on from the finitely many names of a table, and leads no name back to
itself, leads on only so often. -/
theorem Table.wellFounded_of_defined {table : Table} {R : DefName → DefName → Prop}
    (hdefined : ∀ a b, R a b → a ∈ table.definitions.map Definition.name)
    (h : ∀ name, ¬ Relation.TransGen R name name) : WellFounded fun b a => R a b := by
  let Defined := { name // name ∈ table.definitions.map Definition.name }
  let After (b a : Defined) : Prop := Relation.TransGen R a.1 b.1
  have hfinite : Finite Defined := (List.finite_toSet _).to_subtype
  have htrans : IsTrans Defined After := ⟨fun _ _ _ hcb hba => hba.trans hcb⟩
  have hirrefl : Std.Irrefl After := ⟨fun a => h a.1⟩
  have hwf : WellFounded After := Finite.wellFounded_of_trans_of_irrefl After
  have hacc : ∀ a : Defined, Acc (fun b a => R a b) a.1 := by
    intro a
    induction a using hwf.induction with
    | _ a ih =>
      refine ⟨_, fun b hb => ?_⟩
      by_cases hmem : b ∈ table.definitions.map Definition.name
      · exact ih ⟨b, hmem⟩ (.single hb)
      · exact ⟨_, fun c hc => absurd (hdefined b c hc) hmem⟩
  exact ⟨fun a => ⟨_, fun b hb => (hacc ⟨a, hdefined a b hb⟩).inv hb⟩⟩

/-- Aliases that do not reach themselves end after finitely many expansions. -/
theorem Table.wellFounded_expands {table : Table}
    (h : ∀ name, ¬ Relation.TransGen table.Expands name name) :
    WellFounded fun b a => table.Expands a b :=
  wellFounded_of_defined (fun _ _ ⟨_, hbody, _⟩ => mem_of_alias? hbody) h

end Staged

namespace Eval

/-- A union behind aliases offers one of its alternatives. -/
def Offers (table : Table) (ty alternative : Ty) : Prop :=
  ∃ n alternatives, resolveWithin table n ty = .ok (.union alternatives) ∧
    alternative ∈ alternatives

theorem Offers.union {table : Table} {tys : List Ty} {ty : Ty} (h : Offers table (.union tys) ty) :
    ty ∈ tys := by
  obtain ⟨n, alternatives, hn, hmem⟩ := h
  cases n with
  | zero => cases hn
  | succ n =>
    cases hn
    exact hmem

theorem Offers.alias {table : Table} {name : DefName} {ty : Ty}
    (h : Offers table (.alias name) ty) :
    ∃ body, table.alias? name = some body ∧ Offers table body ty := by
  obtain ⟨n, alternatives, hn, hmem⟩ := h
  cases n with
  | zero => cases hn
  | succ n =>
    unfold resolveWithin at hn
    split at hn
    · next body hbody => exact ⟨body, hbody, n, alternatives, hn, hmem⟩
    · cases hn

section

variable {table : Table}

mutual

theorem acc_offers_of_aliases : ∀ (ty : Ty),
    (∀ name ∈ ty.aliases, Acc (fun u t => Offers table t u) (.alias name)) →
      Acc (fun u t => Offers table t u) ty
  | .alias name, h => h name (List.mem_singleton.2 rfl)
  | .union tys, h => ⟨_, fun u hu => acc_offers_of_mem tys h u hu.union⟩
  | .scalar _, _ | .singleton _, _ | .array _, _ | .list _, _ | .compound _, _ | .ref _, _
  | .tuple _, _ | .function .., _ | .code _, _ | .var _, _ | .hole, _ => by
    refine ⟨_, ?_⟩
    rintro u ⟨n, alternatives, hn, -⟩
    cases n <;> cases hn

theorem acc_offers_of_mem : ∀ (tys : List Ty),
    (∀ name ∈ Ty.aliasesOfAll tys, Acc (fun u t => Offers table t u) (.alias name)) →
      ∀ ty ∈ tys, Acc (fun u t => Offers table t u) ty
  | t :: ts, h, ty, hty => by
    rw [Ty.aliasesOfAll] at h
    rcases List.mem_cons.1 hty with heq | hty
    · rw [heq]
      exact acc_offers_of_aliases t fun name hname => h name (List.mem_append_left _ hname)
    · exact acc_offers_of_mem ts (fun name hname => h name (List.mem_append_right _ hname)) ty hty

end

/-- Going from a union to one of its alternatives ends at every type. -/
theorem wellFounded_offers (h : ∀ name, ¬ Relation.TransGen table.Expands name name) :
    WellFounded fun u t => Offers table t u := by
  have haliases : ∀ name, Acc (fun u t => Offers table t u) (.alias name) := by
    intro name
    induction name using (Table.wellFounded_expands h).induction with
    | _ name ih =>
      refine ⟨_, fun u hu => ?_⟩
      obtain ⟨body, hbody, hoffers⟩ := hu.alias
      exact (acc_offers_of_aliases body fun b hb => ih b ⟨body, hbody, hb⟩).inv hoffers
  exact ⟨fun ty => acc_offers_of_aliases ty fun name _ => haliases name⟩

end

namespace ByName

/-! ## Answers that are reached -/

/-- Answers, one for each amount of fuel, that come to a failure or to a result of some kind. -/
inductive Ends {α : Type} (y : Nat → Result α) (P : α → Prop) : Prop
  | ok {a} : ComesTo y (.ok a) → P a → Ends y P
  | failed {e} : ComesTo y (.error (.failed e)) → Ends y P

namespace Ends

variable {α β : Type} {y : Nat → Result α} {P Q : α → Prop} {R : β → Prop}

theorem ret {a : α} (h : P a) : Ends (fun _ => .ok a) P := .ok (.const _) h

theorem fail {e : Error} : Ends (fun _ => Result.fail e) P := .failed (.const _)

theorem ofExcept (x : Except Error α) : Ends (fun _ => Result.ofExcept x) fun a => x = .ok a := by
  cases x with
  | ok a => exact .ret rfl
  | error e => exact .fail

theorem mono (h : Ends y P) (hPQ : ∀ a, P a → Q a) : Ends y Q := by
  cases h with
  | ok hy ha => exact .ok hy (hPQ _ ha)
  | failed hy => exact .failed hy

theorem bind {g : Nat → α → Result β} (h : Ends y P)
    (hg : ∀ a, ComesTo y (.ok a) → P a → Ends (fun k => g k a) R) :
    Ends (fun k => y k >>= g k) R := by
  cases h with
  | failed hy => exact .failed hy.bind_error
  | ok hy ha =>
    cases hg _ hy ha with
    | ok hz hb => exact .ok (hy.bind hz) hb
    | failed hz => exact .failed (hy.bind hz)

theorem orElse {y' : Nat → Result α} (h : Ends y P) (h' : Ends y' P) :
    Ends (fun k => Result.orElse (y k) (y' k)) P := by
  cases h with
  | ok hy ha => exact .ok hy.orElse_ok ha
  | failed hy =>
    cases h' with
    | ok hy' ha => exact .ok (hy.orElse_failed hy') ha
    | failed hy' => exact .failed (hy.orElse_failed hy')

theorem succ (h : Ends (fun k => y (k + 1)) P) : Ends y P := by
  cases h with
  | ok hy ha => exact .ok hy.succ ha
  | failed hy => exact .failed hy.succ

end Ends

/-! ## Settled values -/

section

variable (cx : Context)

/-- A value without functions that can be looked at part by part to the end. -/
inductive Settled : Value → Prop
  | intro {v} : v.isClosure = false →
      (∀ θ ∈ v.parts, Ends (fun k => force (evaluate cx k) θ) fun _ => True) →
      (∀ θ ∈ v.parts, ∀ u, ComesTo (fun k => force (evaluate cx k) θ) (.ok u) → Settled u) →
      (∀ u ∈ v.inner, Settled u) → Settled v

/-- Looking at a thunk ends, with a settled value if with one at all. -/
def Thunk.Settles (θ : Thunk) : Prop := Ends (fun k => force (evaluate cx k) θ) (Settled cx)

/-- Thunks that all settle. -/
def AllSettle (θs : List Thunk) : Prop := ∀ θ ∈ θs, θ.Settles cx

end

section

variable {cx : Context}

theorem Settled.of_parts {v : Value} (hclosure : v.isClosure = false)
    (hparts : AllSettle cx v.parts) (hinner : ∀ u ∈ v.inner, Settled cx u) : Settled cx v := by
  refine .intro hclosure ?_ ?_ hinner
  · intro θ hθ
    exact (hparts θ hθ).mono fun _ _ => True.intro
  · intro θ hθ u hu
    cases hparts θ hθ with
    | ok hv hsettled =>
      cases hv.unique hu
      exact hsettled
    | failed he => cases he.unique hu

theorem Settled.isClosure {v : Value} (h : Settled cx v) : v.isClosure = false := by
  cases h with
  | intro h => exact h

theorem Settled.parts {v : Value} (h : Settled cx v) : AllSettle cx v.parts := by
  cases h with
  | intro _ hends hvalues =>
    intro θ hθ
    cases hends θ hθ with
    | ok hv _ => exact .ok hv (hvalues θ hθ _ hv)
    | failed he => exact .failed he

theorem Settled.literal {l : Literal} : Settled cx (.literal l) :=
  .of_parts rfl (List.forall_mem_nil _) (List.forall_mem_nil _)

theorem Settled.var {x : Var} : Settled cx (.var x) :=
  .of_parts rfl (List.forall_mem_nil _) (List.forall_mem_nil _)

theorem Thunk.settles_known {v : Value} (h : Settled cx v) : (Thunk.known v).Settles cx := .ret h

theorem AllSettle.nil : AllSettle cx [] := List.forall_mem_nil _

theorem AllSettle.singleton {θ : Thunk} (h : θ.Settles cx) : AllSettle cx [θ] := by
  intro η hη
  rw [List.mem_singleton] at hη
  rw [hη]
  exact h

theorem AllSettle.tail {θ : Thunk} {θs : List Thunk} (h : AllSettle cx (θ :: θs)) :
    AllSettle cx θs :=
  List.forall_mem_of_forall_mem_cons h

theorem AllSettle.append {θs θs' : List Thunk} (h : AllSettle cx θs) (h' : AllSettle cx θs') :
    AllSettle cx (θs ++ θs') := by
  intro θ hθ
  rcases List.mem_append.1 hθ with hθ | hθ
  · exact h θ hθ
  · exact h' θ hθ

theorem AllSettle.neutrals (vars : List Var) : AllSettle cx (neutrals vars) := by
  intro θ hθ
  obtain ⟨x, -, rfl⟩ := List.mem_map.1 hθ
  exact Thunk.settles_known .var

theorem AllSettle.projections {p : Pattern} {v : Value} (h : Settled cx v) :
    AllSettle cx (projections p v) := by
  intro θ hθ
  obtain ⟨x, -, rfl⟩ := List.mem_map.1 hθ
  refine Thunk.settles_known (.of_parts rfl AllSettle.nil ?_)
  intro u hu
  rw [List.mem_singleton.1 hu]
  exact h

theorem AllSettle.partsAt? {fs : List (String × Thunk)} {θs : List Thunk}
    (h : AllSettle cx (fs.map (·.2))) :
    ∀ {fields : List (String × Pattern)}, partsAt? fs fields = some θs → AllSettle cx θs := by
  intro fields hparts
  induction fields generalizing θs with
  | nil =>
    cases hparts
    exact .nil
  | cons field rest ih =>
    unfold ByName.partsAt? at hparts
    obtain ⟨θ, hθ, hparts⟩ := Option.bind_eq_some_iff.1 hparts
    obtain ⟨θs', hrest, hparts⟩ := Option.bind_eq_some_iff.1 hparts
    cases hparts
    intro η hη
    rcases List.mem_cons.1 hη with rfl | hη
    · exact h η (List.mem_map.2 ⟨_, Keyed.mem_of_find? hθ, rfl⟩)
    · exact ih hrest η hη

end

/-! ## Tests and binders -/

section

variable {cx : Context}

theorem decideInt_ends (p : Pattern) (accept : Int32 → Bool) (v : Value) :
    Ends (fun _ => decideInt p accept v) fun _ => True := by
  unfold decideInt
  split
  · exact .ret True.intro
  · split
    · exact .ret True.intro
    · exact .fail

theorem decideNeutral_ends (p : Pattern) : Ends (fun _ => decideNeutral p) fun _ => True := by
  refine (Ends.ofExcept (irrefutable p)).bind fun certain _ _ => ?_
  cases certain with
  | true => exact .ret True.intro
  | false => exact .ret True.intro

theorem decideAll_ends {ps : List Pattern}
    (hps : ∀ p ∈ ps, ∀ {v}, Settled cx v →
      Ends (fun k => decideMatch (force (evaluate cx k)) p v) fun _ => True)
    (decided : Bool) {θs : List Thunk} (h : AllSettle cx θs) :
    Ends (fun k => decideAll (force (evaluate cx k)) decided ps θs) fun _ => True := by
  induction ps generalizing decided θs with
  | nil => exact .ret True.intro
  | cons p ps ih =>
    rw [List.forall_mem_cons] at hps
    cases θs with
    | nil => exact .ret True.intro
    | cons θ θs =>
      simp only [decideAll]
      refine (Ends.ofExcept (irrefutable p)).bind fun certain _ _ => ?_
      cases certain with
      | true => exact ih hps.2 decided h.tail
      | false =>
        refine (h θ List.mem_cons_self).bind fun v _ hv => (hps.1 hv).bind fun verdict _ _ => ?_
        cases verdict with
        | none => exact ih hps.2 false h.tail
        | some b =>
          cases b with
          | false => exact .ret True.intro
          | true => exact ih hps.2 decided h.tail

theorem decideMatch_ends (p : Pattern) {v : Value} (h : Settled cx v) :
    Ends (fun k => decideMatch (force (evaluate cx k)) p v) fun _ => True := by
  induction p using Pattern.induction generalizing v with
  | hole => exact .fail
  | var | wildcard => exact .ret True.intro
  | int | range => exact decideInt_ends _ _ v
  | tuple info ps ih =>
    cases v with
    | var | apply | cond | call | test | command | splice | project => exact decideNeutral_ends _
    | tuple θs =>
      by_cases hlen : ps.length = θs.length
      · simp only [decideMatch, Value.isNeutral, Bool.false_eq_true, hlen, if_false, if_true]
        exact decideAll_ends ih true h.parts
      · simp only [decideMatch, Value.isNeutral, Bool.false_eq_true, hlen, if_false]
        exact .fail
    | literal | array | list | compound | ref | closure | quote => exact .fail
  | list info ps ih =>
    cases v with
    | var | apply | cond | call | test | command | splice | project => exact decideNeutral_ends _
    | list θs =>
      by_cases hlen : ps.length = θs.length
      · simp only [decideMatch, Value.isNeutral, Bool.false_eq_true, hlen, if_false, if_true]
        exact decideAll_ends ih true h.parts
      · simp only [decideMatch, Value.isNeutral, Bool.false_eq_true, hlen, if_false]
        exact .ret True.intro
    | literal | array | tuple | compound | ref | closure | quote => exact .fail
  | compound info fields ih =>
    cases v with
    | var | apply | cond | call | test | command | splice | project => exact decideNeutral_ends _
    | compound fs =>
      simp only [decideMatch, Value.isNeutral, Bool.false_eq_true, if_false, decideFields_eq]
      cases hparts : partsAt? fs fields with
      | none => exact .fail
      | some θs =>
        exact decideAll_ends (List.forall_mem_map.2 ih) true (AllSettle.partsAt? h.parts hparts)
    | literal | array | list | tuple | ref | closure | quote => exact .fail

theorem destructureAll_ends {ps : List Pattern}
    (hps : ∀ p ∈ ps, ∀ {θ}, θ.Settles cx →
      Ends (fun k => destructure (force (evaluate cx k)) p θ) (AllSettle cx))
    {θs : List Thunk} (h : AllSettle cx θs) :
    Ends (fun k => destructureAll (force (evaluate cx k)) ps θs) (AllSettle cx) := by
  induction ps generalizing θs with
  | nil => exact .ret .nil
  | cons p ps ih =>
    rw [List.forall_mem_cons] at hps
    cases θs with
    | nil => exact .ret .nil
    | cons θ θs =>
      simp only [destructureAll]
      refine (hps.1 (h θ List.mem_cons_self)).bind fun first _ hfirst => ?_
      exact (ih hps.2 h.tail).bind fun others _ hothers => .ret (hfirst.append hothers)

theorem destructureFields_ends {fields : List (String × Pattern)}
    (hfields : ∀ f ∈ fields, ∀ {θ}, θ.Settles cx →
      Ends (fun k => destructure (force (evaluate cx k)) f.2 θ) (AllSettle cx))
    (record : Value) {entries : List (String × Thunk)} (h : AllSettle cx (entries.map (·.2))) :
    Ends (fun k => destructureFields (force (evaluate cx k)) record entries fields)
      (AllSettle cx) := by
  induction fields with
  | nil => exact .ret .nil
  | cons f rest ih =>
    rw [List.forall_mem_cons] at hfields
    simp only [destructureFields]
    cases hfind : Keyed.find? f.1 entries with
    | none => exact .fail
    | some θ =>
      have hθ : θ.Settles cx := h θ (List.mem_map.2 ⟨_, Keyed.mem_of_find? hfind, rfl⟩)
      refine (hfields.1 hθ).bind fun first _ hfirst => ?_
      exact (ih hfields.2).bind fun others _ hothers => .ret (hfirst.append hothers)

theorem elementsApart_ends {ps : List Pattern}
    (hps : ∀ p ∈ ps, ∀ {θ}, θ.Settles cx →
      Ends (fun k => destructure (force (evaluate cx k)) p θ) (AllSettle cx))
    (q : Pattern) (v : Value) (hv : Settled cx v) :
    Ends (fun k => elementsApart (force (evaluate cx k)) q ps v) (AllSettle cx) := by
  unfold elementsApart
  split
  · next θs helements =>
    by_cases hlen : ps.length = θs.length
    · simp only [hlen, if_true]
      exact destructureAll_ends hps (Value.parts_of_elements? helements ▸ hv.parts)
    · simp only [hlen, if_false]
      exact .fail
  · exact .fail

theorem opened_ends {apart : Nat → Value → Result (List Thunk)}
    (hapart : ∀ v, Settled cx v → Ends (fun k => apart k v) (AllSettle cx)) (p : Pattern)
    {θ : Thunk} (hθ : θ.Settles cx) :
    Ends (fun k => opened (force (evaluate cx k)) p (apart k) θ) (AllSettle cx) := by
  unfold opened
  by_cases hnone : p.binders.isEmpty = true
  · simp only [hnone, if_true]
    exact .ret .nil
  · simp only [hnone]
    refine Ends.bind hθ fun v _ hv => ?_
    by_cases hneutral : v.isNeutral = true
    · simp only [hneutral, if_true]
      exact .ret (.projections hv)
    · simp only [hneutral]
      exact hapart v hv

theorem destructure_ends (p : Pattern) {θ : Thunk} (hθ : θ.Settles cx) :
    Ends (fun k => destructure (force (evaluate cx k)) p θ) (AllSettle cx) := by
  induction p using Pattern.induction generalizing θ with
  | hole => exact .fail
  | var => exact .ret (.singleton hθ)
  | int | range | wildcard => exact .ret .nil
  | tuple info ps ih =>
    simp only [destructure_tuple]
    exact opened_ends (elementsApart_ends ih _) _ hθ
  | list info ps ih =>
    simp only [destructure_list]
    exact opened_ends (elementsApart_ends ih _) _ hθ
  | compound info fields ih =>
    simp only [destructure_compound]
    refine opened_ends (fun v hv => ?_) _ hθ
    cases v with
    | compound fs => exact destructureFields_ends ih _ hv.parts
    | _ => exact .fail

theorem runNative_ends (n : Native) {v : Value} (h : Settled cx v) :
    Ends (fun k => runNative (force (evaluate cx k)) n v) fun r => ∀ u, r = some u →
      Settled cx u := by
  unfold runNative
  split
  · refine .ret fun u hu => ?_
    obtain ⟨b, -, rfl⟩ := Option.map_eq_some_iff.1 hu
    exact .literal
  · next x y _ hpair =>
    have hparts : AllSettle cx [x, y] := by
      unfold Value.pair? at hpair
      split at hpair
      · cases hpair
        exact h.parts
      · cases hpair
    refine (hparts x (by simp)).bind fun a _ _ => (hparts y (by simp)).bind fun b _ _ => ?_
    refine .ret fun u hu => ?_
    obtain ⟨l, -, rfl⟩ := Option.map_eq_some_iff.1 hu
    exact .literal
  · exact .ret nofun

end

/-! ## Evaluation -/

section

variable {cx : Context}

theorem enterBody_ends {ρ : List Thunk} {depth : Nat} {θ : Thunk} {b : Term} (p : Pattern)
    (hρ : AllSettle cx ρ) (hθ : θ.Settles cx)
    (hbody : ∀ ρ, AllSettle cx ρ → Ends (fun k => evaluate cx k ρ depth b) (Settled cx)) :
    Ends (fun k => enterBody (evaluate cx k) ρ depth p θ b) (Settled cx) :=
  (destructure_ends p hθ).bind fun _ _ hθs => hbody _ (hρ.append hθs)

section

variable {depth : Nat}
  (hbodies : ∀ name f, cx.definitions.find? name = some (.function f) → depth < cx.unfoldLimit →
    ∀ ρ, AllSettle cx ρ → Ends (fun k => evaluate cx k ρ (depth + 1) f.body) (Settled cx))

include hbodies

theorem call_ends {ρ : List Thunk} (name : DefName) (a : Term)
    (ha : (Thunk.delayed ρ depth a).Settles cx) :
    Ends (fun k => call cx (evaluate cx k) ρ depth name a) (Settled cx) := by
  have hstuck : Ends (fun k => do return Value.call name (← evaluate cx k ρ depth a) a.ty)
      (Settled cx) := by
    refine Ends.bind ha fun v _ hv => .ret (.of_parts rfl .nil ?_)
    exact List.forall_mem_singleton.2 hv
  unfold call
  match hfind : cx.definitions.find? name with
  | none => exact hstuck
  | some (.resource _) => exact .fail
  | some (.alias _) => exact .fail
  | some (.function f) =>
    by_cases hbuiltin : f.has .builtin = true
    · simp only [hbuiltin, if_true]
      cases Keyed.find? name cx.natives with
      | none => exact .fail
      | some native =>
        refine Ends.bind ha fun v _ hv => (runNative_ends native hv).bind fun r _ hr => ?_
        cases r with
        | none => exact .ret (.of_parts rfl .nil (List.forall_mem_singleton.2 hv))
        | some u => exact .ret (hr u rfl)
    · by_cases hlimit : cx.unfoldLimit ≤ depth
      · simp only [hbuiltin, hlimit, if_true]
        exact hstuck
      · simp only [hbuiltin, hlimit]
        exact enterBody_ends f.binder .nil ha (hbodies name f hfind (Nat.lt_of_not_le hlimit))

mutual

/-- Evaluation below the bodies that are unfolded one level deeper. -/
theorem evaluate_ends_of_bodies : ∀ (t : Term) {ρ : List Thunk}, t.isFirstOrder = true →
    AllSettle cx ρ → Ends (fun k => evaluate cx k ρ depth t) (Settled cx)
  | .literal .., _, _, _ => .succ (.ret .literal)
  | .array _ _ es, _, ht, hρ | .list _ es, _, ht, hρ | .tuple _ es, _, ht, hρ =>
    .succ (.ret (.of_parts rfl (allSettle_delayed es ht hρ) (List.forall_mem_nil _)))
  | .compound _ fields, _, ht, hρ => by
    refine .succ (.ret (.of_parts rfl ?_ (List.forall_mem_nil _)))
    exact allSettle_delayedFields fields ht hρ
  | .ref _ e, _, ht, hρ | .quote _ e, _, ht, hρ =>
    .succ (.ret (.of_parts rfl (.singleton (evaluate_ends_of_bodies e ht hρ))
      (List.forall_mem_nil _)))
  | .lambda .., _, ht, _ => nomatch ht
  | .apply _ f a, ρ, ht, hρ => by
    obtain ⟨hf, ha⟩ := Bool.and_eq_true_iff.1 ht
    refine .succ ((evaluate_ends_of_bodies f hf hρ).bind fun v _ hv => ?_)
    have harg : (Thunk.delayed ρ depth a).Settles cx := evaluate_ends_of_bodies a ha hρ
    have hstuck : Ends (fun _ => .ok (.apply v (.delayed ρ depth a) a.ty)) (Settled cx) :=
      .ret (.of_parts rfl (.singleton harg) (List.forall_mem_singleton.2 hv))
    cases v with
    | closure => exact nomatch hv.isClosure
    | _ => exact hstuck
  | .cond _ c a b, ρ, ht, hρ => by
    obtain ⟨hca, hb⟩ := Bool.and_eq_true_iff.1 ht
    obtain ⟨hc, ha⟩ := Bool.and_eq_true_iff.1 hca
    refine .succ ((evaluate_ends_of_bodies c hc hρ).bind fun v _ hv => ?_)
    match hverdict : v.seen.bool? with
    | some true => exact evaluate_ends_of_bodies a ha hρ
    | some false => exact evaluate_ends_of_bodies b hb hρ
    | none =>
      refine .ret (.of_parts rfl ?_ (List.forall_mem_singleton.2 hv))
      have ha' : (Thunk.delayed ρ depth a).Settles cx := evaluate_ends_of_bodies a ha hρ
      have hb' : (Thunk.delayed ρ depth b).Settles cx := evaluate_ends_of_bodies b hb hρ
      exact (AllSettle.singleton ha').append (AllSettle.singleton hb')
  | .letIn _ p i b, ρ, ht, hρ => by
    obtain ⟨hi, hb⟩ := Bool.and_eq_true_iff.1 ht
    have hinit : (Thunk.delayed ρ depth i).Settles cx := evaluate_ends_of_bodies i hi hρ
    exact .succ (enterBody_ends p hρ hinit fun _ hρ' => evaluate_ends_of_bodies b hb hρ')
  | .var _ x, ρ, _, hρ => by
    refine .succ (y := fun k => evaluate cx k ρ depth _) ?_
    simp only [evaluate, evaluateWith]
    cases hget : ρ[x.level]? with
    | none => exact .ret .var
    | some θ => exact hρ θ (List.mem_of_getElem? hget)
  | .call _ name a, _, ht, hρ => .succ (call_ends hbodies name a (evaluate_ends_of_bodies a ht hρ))
  | .test _ e p, _, ht, hρ => by
    refine .succ ((evaluate_ends_of_bodies e ht hρ).bind fun v _ hv => ?_)
    refine (decideMatch_ends p hv).bind fun verdict _ _ => ?_
    cases verdict with
    | none => exact .ret (.of_parts rfl .nil (List.forall_mem_singleton.2 hv))
    | some b => exact .ret .literal
  | .command .., _, _, _ =>
    .succ (.ret (.of_parts rfl (List.forall_mem_nil _) (List.forall_mem_nil _)))
  | .splice _ e, _, ht, hρ => by
    refine .succ ((evaluate_ends_of_bodies e ht hρ).bind fun v _ hv => ?_)
    have hstuck : Ends (fun _ => .ok (.splice v e.ty)) (Settled cx) :=
      .ret (.of_parts rfl .nil (List.forall_mem_singleton.2 hv))
    cases v with
    | quote θ => exact hv.parts θ (List.mem_singleton.2 rfl)
    | _ => exact hstuck
  | .hole _, _, _, _ => .succ .fail

theorem allSettle_delayed : ∀ (es : List Term) {ρ : List Thunk},
    Term.allEverywhere (fun e => !e.isLambda) es = true → AllSettle cx ρ →
      AllSettle cx (es.map (.delayed ρ depth))
  | [], _, _, _ => .nil
  | e :: es, ρ, hes, hρ => by
    obtain ⟨he, hes⟩ := Bool.and_eq_true_iff.1 hes
    have hfirst : (Thunk.delayed ρ depth e).Settles cx := evaluate_ends_of_bodies e he hρ
    exact (AllSettle.singleton hfirst).append (allSettle_delayed es hes hρ)

theorem allSettle_delayedFields : ∀ (fields : List (String × Term)) {ρ : List Thunk},
    Term.fieldsEverywhere (fun e => !e.isLambda) fields = true → AllSettle cx ρ →
      AllSettle cx ((fields.map fun f => (f.1, Thunk.delayed ρ depth f.2)).map (·.2))
  | [], _, _, _ => .nil
  | (_, e) :: rest, ρ, hfields, hρ => by
    obtain ⟨he, hrest⟩ := Bool.and_eq_true_iff.1 hfields
    have hfirst : (Thunk.delayed ρ depth e).Settles cx := evaluate_ends_of_bodies e he hρ
    exact (AllSettle.singleton hfirst).append (allSettle_delayedFields rest hrest hρ)

end

end

/-- Evaluation by name ends, with a settled value if with one at all. -/
theorem evaluate_ends (hbodies : cx.definitions.isFirstOrder = true) (depth : Nat) {t : Term}
    {ρ : List Thunk} (ht : t.isFirstOrder = true) (hρ : AllSettle cx ρ) :
    Ends (fun k => evaluate cx k ρ depth t) (Settled cx) := by
  induction hroom : cx.unfoldLimit - depth using Nat.strong_induction_on generalizing depth t ρ with
  | _ room ih =>
    refine evaluate_ends_of_bodies (fun name f hfind hdepth ρ' hρ' => ?_) t ht hρ
    have hbody := Table.isFirstOrder_function hbodies (Table.find?_function hfind).1
    exact ih (cx.unfoldLimit - (depth + 1)) (by omega) (depth + 1) hbody hρ' rfl

end

/-! ## Read-back -/

section

variable {cx : Context}

theorem readBackWith_ends {v : Value}
    (hshape : ∀ ty, Ends (fun k => readShape cx k v ty) fun _ => True) (ty : Ty) :
    Ends (fun k => readBackWith (readShape cx k) v ty) fun _ => True := by
  unfold readBackWith
  cases ty.singleton? with
  | some l => exact .ret True.intro
  | none => exact (hshape ty).bind fun _ _ _ => .ret True.intro

theorem readThunks_ends (ty : Ty) (θs : List Thunk)
    (h : ∀ θ ∈ θs, ∀ ty, Ends (fun k => readThunk (evaluate cx k) (readShape cx k) θ ty)
      fun _ => True) :
    Ends (fun k => readThunks (evaluate cx k) (readShape cx k) ty θs) fun _ => True := by
  induction θs with
  | nil => exact .ret True.intro
  | cons θ θs ih =>
    refine (h θ List.mem_cons_self ty).bind fun _ _ _ => ?_
    exact (ih (List.forall_mem_of_forall_mem_cons h)).bind fun _ _ _ => .ret True.intro

theorem readTuple_ends (θs : List Thunk) (tys : List Ty)
    (h : ∀ θ ∈ θs, ∀ ty, Ends (fun k => readThunk (evaluate cx k) (readShape cx k) θ ty)
      fun _ => True) :
    Ends (fun k => readTuple (evaluate cx k) (readShape cx k) θs tys) fun _ => True := by
  induction θs generalizing tys with
  | nil => exact .ret True.intro
  | cons θ θs ih =>
    cases tys with
    | nil => exact .ret True.intro
    | cons ty tys =>
      refine (h θ List.mem_cons_self ty).bind fun _ _ _ => ?_
      exact (ih tys (List.forall_mem_of_forall_mem_cons h)).bind fun _ _ _ => .ret True.intro

theorem readFields_ends (onMissing : Error) (tys : List (String × Ty))
    (fs : List (String × Thunk))
    (h : ∀ θ ∈ fs.map (·.2), ∀ ty,
      Ends (fun k => readThunk (evaluate cx k) (readShape cx k) θ ty) fun _ => True) :
    Ends (fun k => readFields (evaluate cx k) (readShape cx k) onMissing tys fs) fun _ => True := by
  induction fs with
  | nil => exact .ret True.intro
  | cons f fs ih =>
    obtain ⟨key, θ⟩ := f
    simp only [readFields]
    cases Keyed.find? key tys with
    | none => exact .fail
    | some ty =>
      refine (h θ List.mem_cons_self ty).bind fun _ _ _ => ?_
      exact (ih (List.forall_mem_of_forall_mem_cons h)).bind fun _ _ _ => .ret True.intro

theorem readUnion_ends (onNone : Error) {v : Value} (tys : List Ty)
    (h : ∀ ty ∈ tys, Ends (fun k => readShape cx k v ty) fun _ => True) :
    Ends (fun k => readUnion (readShape cx k) onNone v tys) fun _ => True := by
  induction tys with
  | nil => exact .fail
  | cons ty tys ih =>
    exact (h ty List.mem_cons_self).orElse (ih (List.forall_mem_of_forall_mem_cons h))

theorem shapeWith_ends {v : Value} {ty : Ty} (hclosure : v.isClosure = false)
    (hparts : ∀ θ ∈ v.parts, ∀ ty,
      Ends (fun k => readThunk (evaluate cx k) (readShape cx k) θ ty) fun _ => True)
    (hinner : ∀ u ∈ v.inner, ∀ ty,
      Ends (fun k => readBackWith (readShape cx k) u ty) fun _ => True)
    (hoffers : ∀ alternative, Offers cx.definitions ty alternative →
      Ends (fun k => readShape cx k v alternative) fun _ => True) :
    Ends (fun k => shapeWith cx (evaluate cx k) (readShape cx k) v ty) fun _ => True := by
  refine (Ends.ofExcept (resolve cx.definitions ty)).bind fun view _ hview => ?_
  have hunion : ∀ tys, view = .union tys →
      Ends (fun k => readUnion (readShape cx k) (atType v ty) v tys) fun _ => True := by
    intro tys htys
    subst htys
    exact readUnion_ends _ tys fun alternative hmem => hoffers alternative ⟨_, tys, hview, hmem⟩
  have hone : ∀ {y : Nat → Result Term} {f : Term → Term}, Ends y (fun _ => True) →
      Ends (fun k => y k >>= fun t => .ok (f t)) fun _ => True :=
    fun h => h.bind fun _ _ _ => .ret True.intro
  cases v with
  | closure => exact nomatch hclosure
  | literal | var | command => exact .ret True.intro
  | array kind θs => exact (readThunks_ends _ θs hparts).bind fun _ _ _ => .ret True.intro
  | list θs =>
    cases view with
    | list element => exact (readThunks_ends _ θs hparts).bind fun _ _ _ => .ret True.intro
    | union tys => exact hunion tys rfl
    | _ => exact .fail
  | compound fs =>
    cases view with
    | compound tys => exact (readFields_ends _ tys fs hparts).bind fun _ _ _ => .ret True.intro
    | union tys => exact hunion tys rfl
    | _ => exact .fail
  | ref θ =>
    cases view with
    | ref element => exact hone (hparts θ List.mem_cons_self element)
    | union tys => exact hunion tys rfl
    | _ => exact .fail
  | tuple θs =>
    cases view with
    | tuple tys =>
      by_cases hlen : θs.length = tys.length
      · simp only [hlen, if_true]
        exact (readTuple_ends θs tys hparts).bind fun _ _ _ => .ret True.intro
      · simp only [hlen, if_false]
        exact .fail
    | union tys => exact hunion tys rfl
    | _ => exact .fail
  | quote θ =>
    cases view with
    | code element => exact hone (hparts θ List.mem_cons_self element)
    | union tys => exact hunion tys rfl
    | _ => exact .fail
  | apply f θ argumentTy =>
    refine (hinner f List.mem_cons_self _).bind fun _ _ _ => ?_
    exact hone (hparts θ List.mem_cons_self argumentTy)
  | cond c θ θ' =>
    refine (hinner c List.mem_cons_self _).bind fun _ _ _ => ?_
    refine (hparts θ List.mem_cons_self ty).bind fun _ _ _ => ?_
    exact hone (hparts θ' (List.mem_cons_of_mem _ List.mem_cons_self) ty)
  | call _ u | test u | splice u | project _ u => exact hone (hinner u List.mem_cons_self _)

/-- A settled value reads back at every type, if going from unions to alternatives ends. -/
theorem readShape_ends_of_offers (hoffers : WellFounded fun u t => Offers cx.definitions t u)
    {v : Value} (hv : Settled cx v) (ty : Ty) :
    Ends (fun k => readShape cx k v ty) fun _ => True := by
  induction hv generalizing ty with
  | @intro v hclosure hends _ _ ihparts ihinner =>
    have hparts : ∀ θ ∈ v.parts, ∀ ty,
        Ends (fun k => readThunk (evaluate cx k) (readShape cx k) θ ty) fun _ => True :=
      fun θ hθ ty => (hends θ hθ).bind fun u hu _ => readBackWith_ends (ihparts θ hθ u hu) ty
    have hinner : ∀ u ∈ v.inner, ∀ ty,
        Ends (fun k => readBackWith (readShape cx k) u ty) fun _ => True :=
      fun u hu ty => readBackWith_ends (ihinner u hu) ty
    induction ty using hoffers.induction with
    | _ ty ih => exact .succ (shapeWith_ends hclosure hparts hinner ih)

/-- A settled value reads back at every type. -/
theorem readShape_ends (haliases : ∀ name, ¬ Relation.TransGen cx.definitions.Expands name name)
    {v : Value} (hv : Settled cx v) (ty : Ty) :
    Ends (fun k => readShape cx k v ty) fun _ => True :=
  readShape_ends_of_offers (wellFounded_offers haliases) hv ty

end

end ByName

/-! ## Normalization -/

/-- Evaluate a term some of whose variables are bound to themselves, and read it back at a type. -/
def normalizeUnder (cx : Context) (fuel : Nat) (vars : List Var) (term : Term) (ty : Ty) :
    Except (Stop Error) Term :=
  let run : EvalM Term := do
    let env ← EvalM.bindNeutral Env.empty vars
    let v ← evaluate cx fuel env term
    readBack cx fuel v ty
  (run.run.run .empty).1

theorem normalizeUnder_nil (cx : Context) (fuel : Nat) (term : Term) (ty : Ty) :
    normalizeUnder cx fuel [] term ty = normalizeAt cx fuel term ty := rfl

open ByName (Makes Tracks Follows EnvStands) in
theorem normalizeUnder_eq_of_byName {cx : Context} {n : Nat} {vars : List Var} {t : Term} {ty : Ty}
    {r : Except (Stop Error) Term} (hr : r ≠ .error .outOfFuel)
    (h : (do ByName.readBack cx n (← ByName.evaluate cx n (ByName.neutrals vars) 0 t) ty) = r) :
    normalizeUnder cx n vars t ty = r := by
  have heval : Follows (.byName n) cx (evaluate cx n) := ByName.evaluate_byName n
  have henv : EnvStands (fun _ => none) 0 [] 0 Env.empty := ⟨rfl, .nil⟩
  have htracks : Tracks (.byName n) cx (fun _ => none) 0
      (do
        let env ← EvalM.bindNeutral Env.empty vars
        let v ← evaluate cx n env t
        readBack cx n v ty)
      (fun k => do ByName.readBack cx k (← ByName.evaluate cx k (ByName.neutrals vars) 0 t) ty)
      fun _ a b => a = b :=
    Tracks.afterMakes (Makes.bindNeutral vars henv) fun env' Φ₁ _ henv' =>
      (heval t henv').bind fun u v Φ₂ _ hu =>
        ByName.readBackWith_tracks (ByName.readShape_byName n) hu ty
  subst h
  exact htracks.eq_of_byName ByName.charted_empty hr

/-- Normalization of a term without local functions, in a program without local functions, ends with
a term or a failure, at every type. The functions of the program may call each other in cycles, and
the term may have free variables. -/
theorem normalization_terminates (cx : Context) (hbodies : cx.definitions.isFirstOrder = true)
    (haliases : ∀ name, ¬ Relation.TransGen cx.definitions.Expands name name) (vars : List Var)
    {t : Term} (ht : t.isFirstOrder = true) (ty : Ty) :
    ∃ r, r ≠ .error .outOfFuel ∧ ∃ n, ∀ fuel, n ≤ fuel → normalizeUnder cx fuel vars t ty = r := by
  have hends : ByName.Ends
      (fun k => do ByName.readBack cx k (← ByName.evaluate cx k (ByName.neutrals vars) 0 t) ty)
      fun _ => True :=
    (ByName.evaluate_ends hbodies 0 ht (.neutrals vars)).bind
      fun v _ hv => ByName.readBackWith_ends (ByName.readShape_ends haliases hv) ty
  cases hends with
  | @ok a hy _ =>
    obtain ⟨n, hn⟩ := hy
    exact ⟨.ok a, nofun, n, fun k hk => normalizeUnder_eq_of_byName nofun (hn k hk)⟩
  | @failed e hy =>
    obtain ⟨n, hn⟩ := hy
    refine ⟨.error (.failed e), nofun, n, fun k hk => ?_⟩
    exact normalizeUnder_eq_of_byName nofun (hn k hk)

/-- Two functions that call each other, and an alias of a union with another alias. -/
def alternating : Table := ⟨Staged.prelude ++ [
  .function ⟨[], ⟨["main"], "even"⟩, .var (Pattern.plain .int) ⟨"n", 0⟩, .int,
    .ofCond (.ofTest (.var .int ⟨"n", 0⟩) (.int (Pattern.plain .int) 0)) (.ofLiteral (.int 1))
      (.call .int ⟨["main"], "odd"⟩ (.call .int (Staged.preludeName "int_sub")
        (.ofTuple [.var .int ⟨"n", 0⟩, .ofLiteral (.int 1)])))⟩,
  .function ⟨[], ⟨["main"], "odd"⟩, .var (Pattern.plain .int) ⟨"n", 0⟩, .int,
    .call .int ⟨["main"], "even"⟩ (.var .int ⟨"n", 0⟩)⟩,
  .alias ⟨[], ⟨["main"], "number"⟩, .union [.int, .alias ⟨["main"], "text"⟩]⟩,
  .alias ⟨[], ⟨["main"], "text"⟩, .union [.scalar .string]⟩], by decide⟩

theorem alternating_expands {a b : DefName} (h : alternating.Expands a b) :
    a = ⟨["main"], "number"⟩ ∧ b = ⟨["main"], "text"⟩ := by
  obtain ⟨body, hbody, hb⟩ := h
  obtain ⟨marks, hmem⟩ := Table.exists_mem_of_alias? hbody
  simp only [alternating, Staged.prelude, Staged.preludeFunction, List.cons_append, List.nil_append,
    List.mem_cons, List.not_mem_nil, reduceCtorEq, Staged.Definition.alias.injEq,
    Staged.TypeAlias.mk.injEq, false_or, or_false] at hmem
  rcases hmem with ⟨-, rfl, rfl⟩ | ⟨-, rfl, rfl⟩
  · exact ⟨rfl, List.mem_singleton.1 hb⟩
  · cases hb

/-- Calls on a variable alternate until the limit stops them. -/
theorem normalization_terminates_alternating :
    let cx : Context := ⟨alternating, .prelude, 64⟩
    let t : Term := .call .int ⟨["main"], "even"⟩ (.var .int ⟨"x", 0⟩)
    cx.definitions.isFirstOrder = true ∧ t.isFirstOrder = true ∧
      (∀ name, ¬ Relation.TransGen cx.definitions.Expands name name) ∧
      ∃ r, r ≠ .error .outOfFuel ∧ ∃ n, ∀ fuel, n ≤ fuel →
        normalizeUnder cx fuel [⟨"x", 0⟩] t (.alias ⟨["main"], "number"⟩) = r := by
  intro cx t
  have hbodies : cx.definitions.isFirstOrder = true := by cbv
  have ht : t.isFirstOrder = true := by cbv
  have haliases : ∀ name, ¬ Relation.TransGen cx.definitions.Expands name name := by
    intro name hcycle
    obtain ⟨a, hfirst, -⟩ := Relation.TransGen.head'_iff.1 hcycle
    obtain ⟨b, -, hlast⟩ := Relation.TransGen.tail'_iff.1 hcycle
    have hstart := (alternating_expands hfirst).1
    have hend := (alternating_expands hlast).2
    exact absurd (hstart.symm.trans hend) (by decide)
  exact ⟨hbodies, ht, haliases, normalization_terminates cx hbodies haliases _ ht _⟩

end Eval

end Stagecraft
