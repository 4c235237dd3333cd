import Stagecraft.Proofs.Adequacy

/-!
# Normal forms

What read-back gives, seen without the evaluator. `Shaped` lists what reading a value at a type can
have done. `Quotes` relates a value by name and a term that it reads back to, head form by head
form; it holds of every read-back of a term without refined types (`quotes_of_readShape`). `Waits`
says that the neutral parts of a value wait for something that no evaluation can give them: the
operator of a stuck application is no function, a stuck test is undecided. Evaluation gives only
such values (`evaluate_waits`).
-/

namespace Stagecraft

open Staged (Ty Pattern Term)

namespace Staged.Term

mutual

/-- Whether a property holds of all nodes strictly inside a term. -/
def inside (p : Term → Bool) : Term → Bool
  | .literal .. | .var .. | .command .. | .hole _ => true
  | .array _ _ es | .list _ es | .tuple _ es => allEverywhere p es
  | .compound _ fields => fieldsEverywhere p fields
  | .ref _ e | .lambda _ _ e | .call _ _ e | .test _ e _ | .quote _ e | .splice _ e =>
    p e && e.inside p
  | .apply _ f a => (p f && f.inside p) && (p a && a.inside p)
  | .cond _ c a b => (p c && c.inside p) && (p a && a.inside p) && (p b && b.inside p)
  | .letIn _ _ i b => (p i && i.inside p) && (p b && b.inside p)

/-- Whether a property holds of all nodes of several terms. -/
def allEverywhere (p : Term → Bool) : List Term → Bool
  | [] => true
  | e :: es => (p e && e.inside p) && allEverywhere p es

/-- Whether a property holds of all nodes of the fields of a record. -/
def fieldsEverywhere (p : Term → Bool) : List (String × Term) → Bool
  | [] => true
  | (_, e) :: rest => (p e && e.inside p) && fieldsEverywhere p rest

end

/-- Whether a property holds of all nodes of a term. -/
def everywhere (p : Term → Bool) (t : Term) : Bool := p t && t.inside p

section

variable {p q r : Term → Bool} (h : ∀ t, r t = (p t && q t))

include h

mutual

theorem inside_and : ∀ t : Term, t.inside r = (t.inside p && t.inside q)
  | .literal .. | .var .. | .command .. | .hole _ => rfl
  | .array _ _ es | .list _ es | .tuple _ es => allEverywhere_and es
  | .compound _ fields => fieldsEverywhere_and fields
  | .ref _ e | .lambda _ _ e | .call _ _ e | .test _ e _ | .quote _ e | .splice _ e => by
    simp only [inside, h, inside_and e]
    ac_rfl
  | .apply _ f a | .letIn _ _ f a => by
    simp only [inside, h, inside_and f, inside_and a]
    ac_rfl
  | .cond _ c a b => by
    simp only [inside, h, inside_and c, inside_and a, inside_and b]
    ac_rfl

theorem allEverywhere_and : ∀ es : List Term,
    allEverywhere r es = (allEverywhere p es && allEverywhere q es)
  | [] => rfl
  | e :: es => by
    simp only [allEverywhere, h, inside_and e, allEverywhere_and es]
    ac_rfl

theorem fieldsEverywhere_and : ∀ fields : List (String × Term),
    fieldsEverywhere r fields = (fieldsEverywhere p fields && fieldsEverywhere q fields)
  | [] => rfl
  | (_, e) :: rest => by
    simp only [fieldsEverywhere, h, inside_and e, fieldsEverywhere_and rest]
    ac_rfl

end

theorem everywhere_and (t : Term) : t.everywhere r = (t.everywhere p && t.everywhere q) := by
  simp only [everywhere, h, inside_and h t]
  ac_rfl

end

/-- A term that is a literal. -/
def isLiteral : Term → Bool
  | .literal .. => true
  | _ => false

/-- A node that is not of a refined type. -/
def isPlainNode (t : Term) : Bool := t.ty.singleton?.isNone

/-- Whether no node of a term is of a refined type. -/
def isUnrefined (t : Term) : Bool := t.everywhere isPlainNode

end Staged.Term

/-- Whether variables are numbered one after another. -/
def Var.areFrom (n : Nat) : List Var → Bool
  | [] => true
  | v :: vs => v.level == n && areFrom (n + 1) vs

namespace Staged.Term

mutual

/-- Whether no level in a term points at another variable: an occurrence is of the variable bound at
its level, if there is one, and the variables of a let take the levels after those in scope. -/
def isLevelled (scope : List Var) : Term → Bool
  | .literal .. | .command .. | .hole _ => true
  | .array _ _ es | .list _ es | .tuple _ es => areLevelled scope es
  | .compound _ fields => areFieldsLevelled scope fields
  | .ref _ e | .call _ _ e | .test _ e _ | .quote _ e | .splice _ e => e.isLevelled scope
  | .lambda _ p b => b.isLevelled (scope ++ p.binders)
  | .apply _ f a => f.isLevelled scope && a.isLevelled scope
  | .cond _ c a b => c.isLevelled scope && a.isLevelled scope && b.isLevelled scope
  | .letIn _ p i b =>
    i.isLevelled scope && Var.areFrom scope.length p.binders && b.isLevelled (scope ++ p.binders)
  | .var _ v => scope[v.level]?.all (· == v)

/-- Whether no level in several terms points at another variable. -/
def areLevelled (scope : List Var) : List Term → Bool
  | [] => true
  | e :: es => e.isLevelled scope && areLevelled scope es

/-- Whether no level in the fields of a record points at another variable. -/
def areFieldsLevelled (scope : List Var) : List (String × Term) → Bool
  | [] => true
  | (_, e) :: rest => e.isLevelled scope && areFieldsLevelled scope rest

end

end Staged.Term

namespace Eval

/-- Whether a call at the top level is unfolded. -/
def Context.unfolds (cx : Context) (name : DefName) : Bool :=
  match cx.definitions.find? name with
  | some (.function f) => !f.has .builtin && decide (0 < cx.unfoldLimit)
  | _ => false

/-- A type at which read-back tries alternatives. -/
def Context.isUnion (cx : Context) (ty : Ty) : Bool :=
  match resolve cx.definitions ty with
  | .ok (.union _) => true
  | _ => false

/-- A node that stays when it is normalized again: no call that would be unfolded, and no refined
type where the value is looked at again, that is inside what is tested, inside the argument of a
call and inside a term of a union type. (What is destructured is of no refined type if the term is
well typed.) -/
def Context.keeps (cx : Context) (t : Term) : Bool :=
  (!cx.isUnion t.ty || t.isUnrefined) &&
    match t with
    | .call _ name a => !cx.unfolds name && a.isUnrefined
    | .test _ e _ => e.isUnrefined
    | .letIn _ _ i _ => i.isPlainNode
    | _ => true

/-- A node that stays, and is of no refined type if terms are to be plain. -/
def Context.keepsAt (cx : Context) (plain : Bool) (t : Term) : Bool :=
  cx.keeps t && (!plain || t.isPlainNode)

end Eval

namespace Eval.ByName

/-! ## Values that wait -/

/-- Why a call stays: nothing of the name is defined, or it is a builtin without an answer, or the
unfolding limit is reached. -/
inductive Stays (cx : Context) (name : DefName) (v : Value) : Prop
  | undefined : cx.definitions.find? name = none → Stays cx name v
  | builtin {f n k} : cx.definitions.find? name = some (.function f) → f.has .builtin = true →
      Keyed.find? name cx.natives = some n →
      runNative (force (evaluate cx k)) n v = .ok none → Stays cx name v
  | limit {f} : cx.definitions.find? name = some (.function f) → f.has .builtin = false →
      Stays cx name v

/-- A pattern that is matched part by part. -/
def isStructured : Pattern → Bool
  | .tuple .. | .list .. | .compound .. => true
  | .int .. | .range .. | .var .. | .wildcard _ | .hole _ => false

/-- A value that is a function. -/
def Value.isClosure : Value → Bool
  | .closure .. => true
  | _ => false

/-- A value that is a quoted term. -/
def Value.isQuote : Value → Bool
  | .quote _ => true
  | _ => false

mutual

/-- The neutral parts of a value wait for what no evaluation can give them. -/
inductive Value.Waits (cx : Context) : Value → Prop
  | literal {l} : Value.Waits cx (.literal l)
  | array {kind θs} : (∀ θ ∈ θs, Thunk.Waits cx θ) → Value.Waits cx (.array kind θs)
  | list {θs} : (∀ θ ∈ θs, Thunk.Waits cx θ) → Value.Waits cx (.list θs)
  | compound {fs} : (∀ f ∈ fs, Thunk.Waits cx f.2) → Value.Waits cx (.compound fs)
  | ref {θ} : Thunk.Waits cx θ → Value.Waits cx (.ref θ)
  | tuple {θs} : (∀ θ ∈ θs, Thunk.Waits cx θ) → Value.Waits cx (.tuple θs)
  | closure {p b ρ depth} : (∀ θ ∈ ρ, Thunk.Waits cx θ) → Value.Waits cx (.closure p b ρ depth)
  | quote {θ} : Thunk.Waits cx θ → Value.Waits cx (.quote θ)
  | var {v} : Value.Waits cx (.var v)
  | apply {f θ ty} : Value.Waits cx f → f.isClosure = false → Thunk.Waits cx θ →
      Value.Waits cx (.apply f θ ty)
  | cond {v θ θ'} : Value.Waits cx v → v.seen.bool? = none → Thunk.Waits cx θ →
      Thunk.Waits cx θ' → Value.Waits cx (.cond v θ θ')
  | call {name v ty} : Value.Waits cx v → Stays cx name v → Value.Waits cx (.call name v ty)
  | test {v p ty k} : Value.Waits cx v →
      decideMatch (force (evaluate cx k)) p v = .ok none → Value.Waits cx (.test v p ty)
  | command {line} : Value.Waits cx (.command line)
  | splice {v ty} : Value.Waits cx v → v.isQuote = false → Value.Waits cx (.splice v ty)
  | project {p v x} : Value.Waits cx v → v.isNeutral = true → isStructured p = true →
      x ∈ p.binders → Value.Waits cx (.project p v x)

/-- The neutral values known to a thunk wait. -/
inductive Thunk.Waits (cx : Context) : Thunk → Prop
  | delayed {ρ depth t} : (∀ θ ∈ ρ, Thunk.Waits cx θ) → Thunk.Waits cx (.delayed ρ depth t)
  | known {v} : Value.Waits cx v → Thunk.Waits cx (.known v)

end

/-- Every answer of a computation is of some kind. -/
def Ensures {α : Type} (x : Result α) (P : α → Prop) : Prop := ∀ a, x = .ok a → P a

namespace Ensures

variable {α β : Type} {x : Result α} {P Q : α → Prop}

theorem ret {a : α} (h : P a) : Ensures (.ok a) P := by
  intro b hb
  cases hb
  exact h

theorem error {e : Stop Error} : Ensures (.error e) P := nofun

theorem bind {f : α → Result β} {R : β → Prop} (hx : Ensures x P)
    (hf : ∀ a, x = .ok a → P a → Ensures (f a) R) : Ensures (x >>= f) R := by
  cases x with
  | error e => exact error
  | ok a => exact hf a rfl (hx a rfl)

theorem trivial : Ensures x fun _ => True := fun _ _ => True.intro

end Ensures

section

variable {cx : Context}

/-- Thunks that all wait. -/
abbrev AllWait (cx : Context) (θs : List Thunk) : Prop := ∀ θ ∈ θs, Thunk.Waits cx θ

theorem AllWait.nil : AllWait cx [] := nofun

theorem AllWait.append {θs θs' : List Thunk} (h : AllWait cx θs) (h' : AllWait cx θs') :
    AllWait cx (θs ++ θs') := by
  intro θ hθ
  rcases List.mem_append.1 hθ with hθ | hθ
  · exact h θ hθ
  · exact h' θ hθ

theorem AllWait.neutrals (vars : List Var) : AllWait cx (neutrals vars) := by
  intro θ hθ
  obtain ⟨v, -, rfl⟩ := List.mem_map.1 hθ
  exact .known .var

theorem AllWait.delayed {ρ : List Thunk} (h : AllWait cx ρ) (depth : Nat) (ts : List Term) :
    AllWait cx (ts.map (.delayed ρ depth)) := by
  intro θ hθ
  obtain ⟨t, -, rfl⟩ := List.mem_map.1 hθ
  exact .delayed h

theorem AllWait.projections {p : Pattern} {v : Value} (hv : v.Waits cx)
    (hneutral : v.isNeutral = true) (hp : isStructured p = true) :
    AllWait cx (projections p v) := by
  intro θ hθ
  obtain ⟨x, hx, rfl⟩ := List.mem_map.1 hθ
  exact .known (.project hv hneutral hp hx)

theorem AllWait.of_elements? {v : Value} {θs : List Thunk} (hv : v.Waits cx)
    (h : v.elements? = some θs) : AllWait cx θs := by
  cases hv with
  | tuple hparts | list hparts =>
    cases h
    exact hparts
  | _ => cases h

section

variable {look : Thunk → Result Value}

theorem destructureAll_waits {ps : List Pattern}
    (hps : ∀ p ∈ ps, ∀ θ, Thunk.Waits cx θ → Ensures (destructure look p θ) (AllWait cx))
    {θs : List Thunk} (h : AllWait cx θs) : Ensures (destructureAll look ps θs) (AllWait cx) := by
  induction ps generalizing θs with
  | nil => exact .ret .nil
  | cons p ps ih =>
    rw [List.forall_mem_cons] at hps
    cases θs with
    | nil => exact .ret .nil
    | cons θ θs =>
      obtain ⟨hθ, hθs⟩ := List.forall_mem_cons.1 h
      rw [destructureAll]
      exact (hps.1 θ hθ).bind fun first _ hfirst => (ih hps.2 hθs).bind fun rest _ hrest =>
        .ret (hfirst.append hrest)

theorem destructureFields_waits {fields : List (String × Pattern)}
    (hfields : ∀ f ∈ fields, ∀ θ, Thunk.Waits cx θ → Ensures (destructure look f.2 θ) (AllWait cx))
    (record : Value) {entries : List (String × Thunk)} (h : ∀ f ∈ entries, Thunk.Waits cx f.2) :
    Ensures (destructureFields look record entries fields) (AllWait cx) := by
  induction fields with
  | nil => exact .ret .nil
  | cons f rest ih =>
    rw [List.forall_mem_cons] at hfields
    rw [destructureFields]
    split
    · exact .error
    · next θ hfind =>
      have hθ : Thunk.Waits cx θ := h (f.1, θ) (Keyed.mem_of_find? hfind)
      exact (hfields.1 θ hθ).bind fun first _ hfirst => (ih hfields.2).bind fun others _ hothers =>
        .ret (hfirst.append hothers)

theorem elementsApart_waits {ps : List Pattern}
    (hps : ∀ p ∈ ps, ∀ θ, Thunk.Waits cx θ → Ensures (destructure look p θ) (AllWait cx))
    (q : Pattern) (v : Value) (hv : v.Waits cx) :
    Ensures (elementsApart look q ps v) (AllWait cx) := by
  unfold elementsApart
  split
  · next helements =>
    split
    · exact destructureAll_waits hps (.of_elements? hv helements)
    · exact .error
  · exact .error

variable (hlook : ∀ θ, Thunk.Waits cx θ → Ensures (look θ) (Value.Waits cx))

include hlook

theorem opened_waits {p : Pattern} (hp : isStructured p = true)
    {apart : Value → Result (List Thunk)}
    (hapart : ∀ v, v.Waits cx → Ensures (apart v) (AllWait cx)) {θ : Thunk}
    (hθ : Thunk.Waits cx θ) : Ensures (opened look p apart θ) (AllWait cx) := by
  unfold opened
  split
  · exact .ret .nil
  · refine (hlook θ hθ).bind fun v _ hv => ?_
    split
    · next hneutral => exact .ret (.projections hv hneutral hp)
    · exact hapart v hv

theorem destructure_waits (p : Pattern) (θ : Thunk) (hθ : Thunk.Waits cx θ) :
    Ensures (destructure look p θ) (AllWait cx) := by
  induction p using Pattern.induction generalizing θ with
  | hole => exact .error
  | var => exact .ret (by simpa [AllWait] using hθ)
  | int | range | wildcard => exact .ret .nil
  | tuple info ps ih =>
    rw [destructure_tuple]
    exact opened_waits hlook rfl (elementsApart_waits ih _) hθ
  | list info ps ih =>
    rw [destructure_list]
    exact opened_waits hlook rfl (elementsApart_waits ih _) hθ
  | compound info fields ih =>
    rw [destructure_compound]
    refine opened_waits hlook rfl (fun v hv => ?_) hθ
    unfold fieldsApart
    cases hv with
    | compound hparts => exact destructureFields_waits ih _ hparts
    | _ => exact .error

end

section

variable {n : Nat}
  (heval : ∀ ρ depth t, AllWait cx ρ → Ensures (evaluate cx n ρ depth t) (Value.Waits cx))

include heval

theorem force_waits (θ : Thunk) (hθ : Thunk.Waits cx θ) :
    Ensures (force (evaluate cx n) θ) (Value.Waits cx) := by
  cases hθ with
  | delayed hρ => exact heval _ _ _ hρ
  | known hv => exact .ret hv

theorem enterBody_waits {ρ : List Thunk} {θ : Thunk} (hρ : AllWait cx ρ) (hθ : Thunk.Waits cx θ)
    (depth : Nat) (p : Pattern) (b : Term) :
    Ensures (enterBody (evaluate cx n) ρ depth p θ b) (Value.Waits cx) :=
  (destructure_waits (force_waits heval) p θ hθ).bind fun _ _ hθs =>
    heval _ depth b (hρ.append hθs)

omit heval in
theorem runNative_waits (cx : Context) {look : Thunk → Result Value} (native : Native) (v : Value) :
    Ensures (runNative look native v) fun r => ∀ u, r = some u → u.Waits cx := by
  unfold runNative
  split
  · refine .ret fun u hu => ?_
    obtain ⟨b, -, rfl⟩ := Option.map_eq_some_iff.1 hu
    exact .literal
  · refine Ensures.trivial.bind fun a _ _ => Ensures.trivial.bind fun b _ _ => .ret fun u hu => ?_
    obtain ⟨l, -, rfl⟩ := Option.map_eq_some_iff.1 hu
    exact .literal
  · exact .ret nofun

theorem call_waits {ρ : List Thunk} (hρ : AllWait cx ρ) (depth : Nat) (name : DefName) (a : Term) :
    Ensures (call cx (evaluate cx n) ρ depth name a) (Value.Waits cx) := by
  unfold call
  split
  · next f hf =>
    split
    · next hb =>
      split
      · exact .error
      · next native hnative =>
        refine (heval ρ depth a hρ).bind fun v _ hv => ?_
        refine (runNative_waits cx native v).bind fun r hr hliteral => ?_
        split
        · exact .ret (hliteral _ rfl)
        · exact .ret (.call hv (.builtin hf hb hnative hr))
    · next hb =>
      split
      · refine (heval ρ depth a hρ).bind fun v _ hv => .ret (.call hv (.limit hf ?_))
        simpa using hb
      · exact enterBody_waits heval .nil (.delayed hρ) _ _ _
  · exact .error
  · exact .error
  · next hnone =>
    exact (heval ρ depth a hρ).bind fun v _ hv => .ret (.call hv (.undefined hnone))

theorem evaluateWith_waits {ρ : List Thunk} (hρ : AllWait cx ρ) (depth : Nat) (t : Term) :
    Ensures (evaluateWith cx (evaluate cx n) ρ depth t) (Value.Waits cx) := by
  cases t with
  | literal => exact .ret .literal
  | array _ kind es => exact .ret (.array (hρ.delayed depth es))
  | list _ es => exact .ret (.list (hρ.delayed depth es))
  | tuple _ es => exact .ret (.tuple (hρ.delayed depth es))
  | compound _ fields =>
    refine .ret (.compound fun f hf => ?_)
    obtain ⟨g, -, rfl⟩ := List.mem_map.1 hf
    exact .delayed hρ
  | ref => exact .ret (.ref (.delayed hρ))
  | lambda => exact .ret (.closure hρ)
  | apply _ f a =>
    refine (heval ρ depth f hρ).bind fun v _ hv => ?_
    split
    · cases hv with
      | closure hcaptured => exact enterBody_waits heval hcaptured (.delayed hρ) _ _ _
    · next hstuck =>
      refine .ret (.apply hv ?_ (.delayed hρ))
      cases v with
      | closure p b captured d => exact absurd rfl (hstuck p b captured d)
      | _ => rfl
  | cond _ c a b =>
    refine (heval ρ depth c hρ).bind fun v _ hv => ?_
    split
    · exact heval ρ depth a hρ
    · exact heval ρ depth b hρ
    · next hnone => exact .ret (.cond hv hnone (.delayed hρ) (.delayed hρ))
  | letIn _ p i b => exact enterBody_waits heval hρ (.delayed hρ) depth p b
  | var _ x =>
    rw [evaluateWith]
    split
    · next θ hθ => exact force_waits heval θ (hρ θ (List.mem_of_getElem? hθ))
    · exact .ret .var
  | call _ name a => exact call_waits heval hρ depth name a
  | test _ e p =>
    refine (heval ρ depth e hρ).bind fun v _ hv => ?_
    refine Ensures.trivial.bind fun verdict hverdict _ => ?_
    split
    · exact .ret .literal
    · exact .ret (.test hv hverdict)
  | command => exact .ret .command
  | quote => exact .ret (.quote (.delayed hρ))
  | splice _ e =>
    refine (heval ρ depth e hρ).bind fun v _ hv => ?_
    split
    · cases hv with
      | quote hθ => exact force_waits heval _ hθ
    · next hstuck =>
      refine .ret (.splice hv ?_)
      cases v with
      | quote θ => exact absurd rfl (hstuck θ)
      | _ => rfl
  | hole => exact .error

end

/-- Evaluation gives values whose neutral parts wait. -/
theorem evaluate_waits : ∀ (n : Nat) (ρ : List Thunk) (depth : Nat) (t : Term), AllWait cx ρ →
    Ensures (evaluate cx n ρ depth t) (Value.Waits cx)
  | 0, _, _, _, _ => .error
  | n + 1, _, depth, t, hρ => evaluateWith_waits (evaluate_waits n) hρ depth t

end

/-! ## Values and the terms they read back to -/

mutual

/-- A value reads back to a term of its form, whatever type the node carries. -/
inductive Quotes (cx : Context) : Value → Term → Prop
  | literal {l ty} : Quotes cx (.literal l) (.literal ty l)
  | array {kind θs ty ts} : QuotesAll cx θs ts → Quotes cx (.array kind θs) (.array ty kind ts)
  | list {θs ty ts} : QuotesAll cx θs ts → Quotes cx (.list θs) (.list ty ts)
  | compound {fs ty ts} : QuotesFields cx fs ts → Quotes cx (.compound fs) (.compound ty ts)
  | ref {θ ty t} : QuotesThunk cx θ t → Quotes cx (.ref θ) (.ref ty t)
  | tuple {θs ty ts} : QuotesAll cx θs ts → Quotes cx (.tuple θs) (.tuple ty ts)
  | closure {p b ρ depth ty u t n} :
      evaluate cx n (ρ ++ neutrals p.binders) depth b = .ok u → ReadsTo cx u t →
        Quotes cx (.closure p b ρ depth) (.lambda ty p t)
  | quote {θ ty t} : QuotesThunk cx θ t → Quotes cx (.quote θ) (.quote ty t)
  | var {v ty} : Quotes cx (.var v) (.var ty v)
  | apply {f θ ty g a} : ReadsTo cx f g → QuotesThunk cx θ a →
      Quotes cx (.apply f θ a.ty) (.apply ty g a)
  | cond {v θ θ' ty c a b} : c.ty.singleton? = none → Quotes cx v c → QuotesThunk cx θ a →
      QuotesThunk cx θ' b → Quotes cx (.cond v θ θ') (.cond ty c a b)
  | call {name v ty a} : ReadsTo cx v a → Quotes cx (.call name v a.ty) (.call ty name a)
  | test {v p ty e} : ReadsTo cx v e → Quotes cx (.test v p e.ty) (.test ty e p)
  | command {line ty} : Quotes cx (.command line) (.command ty line)
  | splice {v ty e} : ReadsTo cx v e → Quotes cx (.splice v e.ty) (.splice ty e)
  | project {p v x ty ty' i} : ReadsTo cx v i →
      Quotes cx (.project p v x) (.letIn ty p i (.var ty' x))

/-- A value reads back to a term: to one of its form, or to the literal of a refined type. -/
inductive ReadsTo (cx : Context) : Value → Term → Prop
  | refined {v ty l} : ty.singleton? = some l → ReadsTo cx v (.literal ty l)
  | form {v t} : t.ty.singleton? = none → Quotes cx v t → ReadsTo cx v t

/-- The value of a thunk reads back to a term. -/
inductive QuotesThunk (cx : Context) : Thunk → Term → Prop
  | intro {θ u t} : Gives cx θ u → ReadsTo cx u t → QuotesThunk cx θ t

/-- Thunks whose values read back to terms, one each. -/
inductive QuotesAll (cx : Context) : List Thunk → List Term → Prop
  | nil : QuotesAll cx [] []
  | cons {θ θs t ts} : QuotesThunk cx θ t → QuotesAll cx θs ts → QuotesAll cx (θ :: θs) (t :: ts)

/-- Fields whose values read back to those of a record. -/
inductive QuotesFields (cx : Context) : List (String × Thunk) → List (String × Term) → Prop
  | nil : QuotesFields cx [] []
  | cons {key θ fs t ts} : QuotesThunk cx θ t → QuotesFields cx fs ts →
      QuotesFields cx ((key, θ) :: fs) ((key, t) :: ts)

end

section

variable {cx : Context}

theorem Quotes.withTy {v : Value} {t : Term} (h : Quotes cx v t) (ty : Ty) :
    Quotes cx v (t.withTy ty) := by
  cases h with
  | literal => exact .literal
  | array h => exact .array h
  | list h => exact .list h
  | compound h => exact .compound h
  | ref h => exact .ref h
  | tuple h => exact .tuple h
  | closure h h' => exact .closure h h'
  | quote h => exact .quote h
  | var => exact .var
  | apply h h' => exact .apply h h'
  | cond hnone h h' h'' => exact .cond hnone h h' h''
  | call h => exact .call h
  | test h => exact .test h
  | command => exact .command
  | splice h => exact .splice h
  | project h => exact .project h

theorem ReadsTo.quotes {v : Value} {t : Term} (h : ReadsTo cx v t)
    (hnone : t.ty.singleton? = none) : Quotes cx v t := by
  cases h with
  | refined hl => cases hl.symm.trans hnone
  | form _ hquotes => exact hquotes

theorem ReadsTo.of_isLiteral {v : Value} {t : Term} (h : ReadsTo cx v t)
    (ht : t.isLiteral = false) : Quotes cx v t := by
  cases h with
  | refined => cases ht
  | form _ hquotes => exact hquotes

/-! ## Reading at a type -/

theorem readBackWith_ok {shape : Value → Ty → Result Term} {v : Value} {ty : Ty} {t : Term}
    (h : readBackWith shape v ty = .ok t) :
    (∃ l, ty.singleton? = some l ∧ t = .literal ty l) ∨
      ∃ s, ty.singleton? = none ∧ shape v ty = .ok s ∧ t = s.withTy ty := by
  unfold readBackWith at h
  split at h
  · next l hl =>
    cases h
    exact .inl ⟨l, hl, rfl⟩
  · next hnone =>
    obtain ⟨s, hs, heq⟩ := Except.bind_ok.1 h
    cases heq
    exact .inr ⟨s, hnone, hs, rfl⟩

/-- The form of a value at a type, with the readings that its parts come from. A form that depends
on the type says what the type stands for. -/
inductive Shaped (cx : Context) (eval : Evaluation) (shape : Value → Ty → Result Term) :
    Value → Ty → Term → Prop
  | literal {l ty} : Shaped cx eval shape (.literal l) ty (.literal ty l)
  | array {kind θs ty ts} : readThunks eval shape (Ty.ofElement kind) θs = .ok ts →
      Shaped cx eval shape (.array kind θs) ty (.array ty kind ts)
  | list {θs ty element ts} : resolve cx.definitions ty = .ok (.list element) →
      readThunks eval shape element θs = .ok ts → Shaped cx eval shape (.list θs) ty (.list ty ts)
  | compound {fs ty tys ts} : resolve cx.definitions ty = .ok (.compound tys) →
      readFields eval shape (atType (.compound fs) ty) tys fs = .ok ts →
        Shaped cx eval shape (.compound fs) ty (.compound ty ts)
  | ref {θ ty element t} : resolve cx.definitions ty = .ok (.ref element) →
      readThunk eval shape θ element = .ok t → Shaped cx eval shape (.ref θ) ty (.ref ty t)
  | tuple {θs ty tys ts} : resolve cx.definitions ty = .ok (.tuple tys) →
      θs.length = tys.length → readTuple eval shape θs tys = .ok ts →
        Shaped cx eval shape (.tuple θs) ty (.tuple ty ts)
  | closure {p b ρ depth ty param result u t} :
      resolve cx.definitions ty = .ok (.function param result) →
        eval (ρ ++ neutrals p.binders) depth b = .ok u → readBackWith shape u result = .ok t →
          Shaped cx eval shape (.closure p b ρ depth) ty (.lambda ty p t)
  | quote {θ ty element t} : resolve cx.definitions ty = .ok (.code element) →
      readThunk eval shape θ element = .ok t → Shaped cx eval shape (.quote θ) ty (.quote ty t)
  | var {x ty} : Shaped cx eval shape (.var x) ty (.var ty x)
  | apply {v θ argumentTy ty f a} : readBackWith shape v (.function argumentTy ty) = .ok f →
      readThunk eval shape θ argumentTy = .ok a →
        Shaped cx eval shape (.apply v θ argumentTy) ty (.apply ty f a)
  | cond {v θ θ' ty c a b} : readBackWith shape v .bool = .ok c →
      readThunk eval shape θ ty = .ok a → readThunk eval shape θ' ty = .ok b →
        Shaped cx eval shape (.cond v θ θ') ty (.cond ty c a b)
  | call {name v argumentTy ty a} : readBackWith shape v argumentTy = .ok a →
      Shaped cx eval shape (.call name v argumentTy) ty (.call ty name a)
  | test {v p scrutineeTy ty e} : readBackWith shape v scrutineeTy = .ok e →
      Shaped cx eval shape (.test v p scrutineeTy) ty (.test ty e p)
  | command {line ty} : Shaped cx eval shape (.command line) ty (.command ty line)
  | splice {v codeTy ty e} : readBackWith shape v codeTy = .ok e →
      Shaped cx eval shape (.splice v codeTy) ty (.splice ty e)
  | project {p v x ty i} : readBackWith shape v p.ty = .ok i →
      Shaped cx eval shape (.project p v x) ty (.letIn ty p i (.var ty x))
  | union {v ty alternatives t} : resolve cx.definitions ty = .ok (.union alternatives) →
      readUnion shape (atType v ty) v alternatives = .ok t → Shaped cx eval shape v ty t

/-- Read-back at a type that is not refined gives one of the forms. -/
theorem shaped_of_shapeWith {eval : Evaluation} {shape : Value → Ty → Result Term} {v : Value}
    {ty : Ty} {t : Term} (h : shapeWith cx eval shape v ty = .ok t) :
    Shaped cx eval shape v ty t := by
  unfold shapeWith at h
  obtain ⟨view, hview, h⟩ := Except.bind_ok.1 h
  rw [Result.ofExcept_ok] at hview
  split at h
  · cases h
    exact .literal
  · obtain ⟨ts, hts, heq⟩ := Except.bind_ok.1 h
    cases heq
    exact .array hts
  · obtain ⟨ts, hts, heq⟩ := Except.bind_ok.1 h
    cases heq
    exact .list hview hts
  · obtain ⟨ts, hts, heq⟩ := Except.bind_ok.1 h
    cases heq
    exact .compound hview hts
  · obtain ⟨t, ht, heq⟩ := Except.bind_ok.1 h
    cases heq
    exact .ref hview ht
  · split at h
    · next hlen =>
      obtain ⟨ts, hts, heq⟩ := Except.bind_ok.1 h
      cases heq
      exact .tuple hview hlen hts
    · cases h
  · obtain ⟨u, hu, h⟩ := Except.bind_ok.1 h
    obtain ⟨t, ht, heq⟩ := Except.bind_ok.1 h
    cases heq
    exact .closure hview hu ht
  · obtain ⟨t, ht, heq⟩ := Except.bind_ok.1 h
    cases heq
    exact .quote hview ht
  · cases h
    exact .var
  · obtain ⟨f, hf, h⟩ := Except.bind_ok.1 h
    obtain ⟨a, ha, heq⟩ := Except.bind_ok.1 h
    cases heq
    exact .apply hf ha
  · obtain ⟨c, hc, h⟩ := Except.bind_ok.1 h
    obtain ⟨a, ha, h⟩ := Except.bind_ok.1 h
    obtain ⟨b, hb, heq⟩ := Except.bind_ok.1 h
    cases heq
    exact .cond hc ha hb
  · obtain ⟨a, ha, heq⟩ := Except.bind_ok.1 h
    cases heq
    exact .call ha
  · obtain ⟨e, he, heq⟩ := Except.bind_ok.1 h
    cases heq
    exact .test he
  · cases h
    exact .command
  · obtain ⟨e, he, heq⟩ := Except.bind_ok.1 h
    cases heq
    exact .splice he
  · obtain ⟨i, hi, heq⟩ := Except.bind_ok.1 h
    cases heq
    exact .project hi
  · exact .union hview h
  · cases h

section

variable {n m : Nat} (hshape : ∀ v ty t, readShape cx m v ty = .ok t → Quotes cx v t)

include hshape

theorem readBackWith_quotes {v : Value} {ty : Ty} {t : Term}
    (h : readBackWith (readShape cx m) v ty = .ok t) : ReadsTo cx v t ∧ t.ty = ty := by
  rcases readBackWith_ok h with ⟨l, hl, rfl⟩ | ⟨s, hnone, hs, rfl⟩
  · exact ⟨.refined hl, rfl⟩
  · have hty : (s.withTy ty).ty = ty := Term.ty_withTy ty s
    exact ⟨.form (by rw [hty, hnone]) ((hshape v ty s hs).withTy ty), hty⟩

theorem readThunk_quotes {θ : Thunk} {ty : Ty} {t : Term}
    (h : readThunk (evaluate cx n) (readShape cx m) θ ty = .ok t) :
    QuotesThunk cx θ t ∧ t.ty = ty := by
  obtain ⟨u, hu, h⟩ := Except.bind_ok.1 h
  obtain ⟨hreads, hty⟩ := readBackWith_quotes hshape h
  exact ⟨.intro ⟨n, hu⟩ hreads, hty⟩

theorem readThunks_quotes {ty : Ty} : ∀ {θs : List Thunk} {ts : List Term},
    readThunks (evaluate cx n) (readShape cx m) ty θs = .ok ts → QuotesAll cx θs ts
  | [], _, h => by
    cases h
    exact .nil
  | θ :: θs, ts, h => by
    rw [readThunks] at h
    obtain ⟨t, hfirst, h⟩ := Except.bind_ok.1 h
    obtain ⟨rest, hrest, heq⟩ := Except.bind_ok.1 h
    cases heq
    exact .cons (readThunk_quotes hshape hfirst).1 (readThunks_quotes hrest)

theorem readTuple_quotes : ∀ {θs : List Thunk} {tys : List Ty} {ts : List Term},
    θs.length = tys.length → readTuple (evaluate cx n) (readShape cx m) θs tys = .ok ts →
      QuotesAll cx θs ts
  | [], [], _, _, h => by
    cases h
    exact .nil
  | θ :: θs, ty :: tys, ts, hlen, h => by
    rw [readTuple] at h
    obtain ⟨t, hfirst, h⟩ := Except.bind_ok.1 h
    obtain ⟨rest, hrest, heq⟩ := Except.bind_ok.1 h
    cases heq
    have hlen' : θs.length = tys.length := by simpa using hlen
    exact .cons (readThunk_quotes hshape hfirst).1 (readTuple_quotes hlen' hrest)

theorem readFields_quotes {e : Error} {tys : List (String × Ty)} :
    ∀ {fs : List (String × Thunk)} {ts : List (String × Term)},
      readFields (evaluate cx n) (readShape cx m) e tys fs = .ok ts → QuotesFields cx fs ts
  | [], _, h => by
    cases h
    exact .nil
  | (key, θ) :: fs, ts, h => by
    rw [readFields] at h
    split at h
    · cases h
    · obtain ⟨t, hfirst, h⟩ := Except.bind_ok.1 h
      obtain ⟨rest, hrest, heq⟩ := Except.bind_ok.1 h
      cases heq
      exact .cons (readThunk_quotes hshape hfirst).1 (readFields_quotes hrest)

theorem readUnion_quotes {e : Error} {v : Value} {t : Term} :
    ∀ {tys : List Ty}, readUnion (readShape cx m) e v tys = .ok t → Quotes cx v t
  | [], h => by cases h
  | ty :: tys, h => by
    rw [readUnion] at h
    unfold Result.orElse at h
    split at h
    · exact readUnion_quotes h
    · exact hshape v ty t h

/-- What read-back at a type that is not refined gives, the value reads back to. -/
theorem shapeWith_quotes {v : Value} {ty : Ty} {t : Term}
    (h : shapeWith cx (evaluate cx n) (readShape cx m) v ty = .ok t) : Quotes cx v t := by
  cases shaped_of_shapeWith h with
  | literal => exact .literal
  | array hts => exact .array (readThunks_quotes hshape hts)
  | list _ hts => exact .list (readThunks_quotes hshape hts)
  | compound _ hts => exact .compound (readFields_quotes hshape hts)
  | ref _ ht => exact .ref (readThunk_quotes hshape ht).1
  | tuple _ hlen hts => exact .tuple (readTuple_quotes hshape hlen hts)
  | closure _ hu ht => exact .closure hu (readBackWith_quotes hshape ht).1
  | quote _ ht => exact .quote (readThunk_quotes hshape ht).1
  | var => exact .var
  | apply hf ha =>
    obtain ⟨hreads, hty⟩ := readThunk_quotes hshape ha
    exact hty ▸ .apply (readBackWith_quotes hshape hf).1 hreads
  | @cond _ _ _ _ c _ _ hc ha hb =>
    obtain ⟨hreads, hty⟩ := readBackWith_quotes hshape hc
    have hnone : c.ty.singleton? = none := by rw [hty]; rfl
    exact .cond hnone (hreads.quotes hnone) (readThunk_quotes hshape ha).1
      (readThunk_quotes hshape hb).1
  | call ha =>
    obtain ⟨hreads, hty⟩ := readBackWith_quotes hshape ha
    exact hty ▸ .call hreads
  | test he =>
    obtain ⟨hreads, hty⟩ := readBackWith_quotes hshape he
    exact hty ▸ .test hreads
  | command => exact .command
  | splice he =>
    obtain ⟨hreads, hty⟩ := readBackWith_quotes hshape he
    exact hty ▸ .splice hreads
  | project hi => exact .project (readBackWith_quotes hshape hi).1
  | union _ ht => exact readUnion_quotes hshape ht

end

/-- A value reads back to what it was read back to. -/
theorem quotes_of_readShape : ∀ (n : Nat) (v : Value) (ty : Ty) (t : Term),
    readShape cx n v ty = .ok t → Quotes cx v t
  | 0, _, _, _, h => nomatch h
  | n + 1, _, _, _, h => shapeWith_quotes (quotes_of_readShape n) h

end

end Eval.ByName

end Stagecraft
