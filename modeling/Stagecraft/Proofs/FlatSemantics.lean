import Stagecraft.Eval.Native
import Stagecraft.Flat.ClosureTable
import Stagecraft.Flat.Term

/-!
# Call by value for the flat language

A reference semantics of flat programs. Values are first order: a closure is the tag of its body
and a record of the values it captured. An environment holds one value for every level. A call
evaluates its argument, looks the callee up by name and runs its body on the argument alone;
calling the dispatcher on an argument and a closure runs the body that the closure table has at the
tag, on the argument and the captured values. A clause of a conditional is called in the same way.
A binder takes a value apart without testing literals (`Pattern.bind?`); a test decides
(`Pattern.matches?`). Both have no answer on a value of another form.
-/

namespace Stagecraft.Flat

/-- Values of the flat language. -/
inductive Value where
  | literal (value : Literal)
  | array (kind : ArrayKind) (elements : List Value)
  | list (elements : List Value)
  | compound (fields : List (String × Value))
  | ref (element : Value)
  | tuple (elements : List Value)
  /-- The tag of a body and the values captured for it. -/
  | closure (tag : Nat) (captured : List (String × Value))
deriving Inhabited

namespace Pattern

mutual

/-- Whether a value has the form of a pattern. All parts are looked at. -/
def matches? : Pattern → Value → Option Bool
  | .var .., _ | .wildcard _, _ => some true
  | .int _ n, .literal (.int m) => some (m == n)
  | .range _ min max, .literal (.int m) => some (decide (min ≤ m) && decide (m ≤ max))
  | .tuple _ ps, .tuple vs => if ps.length = vs.length then matchesAll? ps vs else none
  | .list _ ps, .list vs => if ps.length = vs.length then matchesAll? ps vs else some false
  | .compound _ fields, .compound entries => matchesFields? entries fields
  | _, _ => none

/-- Whether values have the forms of patterns, one each. -/
def matchesAll? : List Pattern → List Value → Option Bool
  | p :: ps, v :: vs => do
    let here ← matches? p v
    return here && (← matchesAll? ps vs)
  | _, _ => some true

/-- Whether the fields of a record have the forms of patterns. -/
def matchesFields? (entries : List (String × Value)) : List (String × Pattern) → Option Bool
  | [] => some true
  | (key, p) :: rest => do
    let here ← matches? p (← Keyed.find? key entries)
    return here && (← matchesFields? entries rest)

end

mutual

/-- The values of the variables of a binder, from left to right. -/
def bind? : Pattern → Value → Option (List Value)
  | .var .., v => some [v]
  | .int .., _ | .range .., _ | .wildcard _, _ => some []
  | .tuple _ ps, .tuple vs | .tuple _ ps, .list vs | .list _ ps, .tuple vs | .list _ ps, .list vs =>
    if ps.length = vs.length then bindAll? ps vs else none
  | .compound _ fields, .compound entries => bindFields? entries fields
  | _, _ => none

/-- The values of the variables of several binders. -/
def bindAll? : List Pattern → List Value → Option (List Value)
  | p :: ps, v :: vs => do
    let here ← bind? p v
    return here ++ (← bindAll? ps vs)
  | _, _ => some []

/-- The values of the variables of the fields of a record binder. -/
def bindFields? (entries : List (String × Value)) :
    List (String × Pattern) → Option (List Value)
  | [] => some []
  | (key, p) :: rest => do
    let here ← bind? p (← Keyed.find? key entries)
    return here ++ (← bindFields? entries rest)

end

/-- A tuple binder takes a tuple or a list of its length apart. -/
theorem bind?_tuple {info : PatternInfo} {ps : List Pattern} {v : Value} {ws : List Value}
    (h : (Pattern.tuple info ps).bind? v = some ws) :
    ∃ vs, (v = .tuple vs ∨ v = .list vs) ∧ ps.length = vs.length ∧ bindAll? ps vs = some ws := by
  cases v <;> simp only [bind?, reduceCtorEq] at h
  all_goals split at h
  all_goals first
    | next hl => exact ⟨_, by simp, hl, h⟩
    | cases h

/-- A list binder takes a tuple or a list of its length apart. -/
theorem bind?_list {info : PatternInfo} {ps : List Pattern} {v : Value} {ws : List Value}
    (h : (Pattern.list info ps).bind? v = some ws) :
    ∃ vs, (v = .tuple vs ∨ v = .list vs) ∧ ps.length = vs.length ∧ bindAll? ps vs = some ws := by
  cases v <;> simp only [bind?, reduceCtorEq] at h
  all_goals split at h
  all_goals first
    | next hl => exact ⟨_, by simp, hl, h⟩
    | cases h

mutual

/-- A binder gives one value for each of its variables. -/
theorem length_bind? : ∀ {p : Pattern} {v : Value} {ws : List Value}, p.bind? v = some ws →
    ws.length = p.binders.length
  | .var .., v, ws, h => by simp only [bind?, Option.some.injEq] at h; subst h; rfl
  | .int .., v, ws, h => by simp only [bind?, Option.some.injEq] at h; subst h; rfl
  | .range .., v, ws, h => by simp only [bind?, Option.some.injEq] at h; subst h; rfl
  | .wildcard _, v, ws, h => by simp only [bind?, Option.some.injEq] at h; subst h; rfl
  | .tuple _ ps, v, ws, h => by
    obtain ⟨vs, -, hl, h⟩ := bind?_tuple h
    exact length_bindAll? hl h
  | .list _ ps, v, ws, h => by
    obtain ⟨vs, -, hl, h⟩ := bind?_list h
    exact length_bindAll? hl h
  | .compound _ fields, v, ws, h => by
    cases v <;> simp only [bind?, reduceCtorEq] at h
    exact length_bindFields? h

theorem length_bindAll? : ∀ {ps : List Pattern} {vs ws : List Value}, ps.length = vs.length →
    bindAll? ps vs = some ws → ws.length = (bindersOfAll ps).length
  | [], [], ws, _, h => by simp only [bindAll?, Option.some.injEq] at h; subst h; rfl
  | p :: ps, v :: vs, ws, hl, h => by
    simp only [bindAll?, Option.bind_eq_bind, Option.bind_eq_some_iff, Option.pure_def,
      Option.some.injEq] at h
    obtain ⟨here, hp, rest, hps, rfl⟩ := h
    have hl' : ps.length = vs.length := by simpa using hl
    rw [List.length_append, length_bind? hp, length_bindAll? hl' hps, bindersOfAll,
      List.length_append]

theorem length_bindFields? : ∀ {fields : List (String × Pattern)}
    {entries : List (String × Value)} {ws : List Value}, bindFields? entries fields = some ws →
    ws.length = (bindersOfFields fields).length
  | [], _, ws, h => by simp only [bindFields?, Option.some.injEq] at h; subst h; rfl
  | (key, p) :: rest, entries, ws, h => by
    simp only [bindFields?, Option.bind_eq_bind, Option.bind_eq_some_iff, Option.pure_def,
      Option.some.injEq] at h
    obtain ⟨v, -, here, hp, more, hrest, rfl⟩ := h
    rw [List.length_append, length_bind? hp, length_bindFields? hrest, bindersOfFields,
      List.length_append]

end

end Pattern

/-- What a native function gives on a value: what the evaluator's own gives on literals. -/
def native? (n : Eval.Native) : Value → Option Value
  | .literal (.bool b) => if n = .boolNot then some (.literal (.bool (!b))) else none
  | .tuple [.literal a, .literal b] => (n.onPair (.literal a) (.literal b)).map .literal
  | _ => none

/-- A converted program: its flat definitions, its closure bodies by tag, and the native functions
behind its builtins. -/
structure Program where
  definitions : List Definition
  closures : ClosureTable
  natives : Eval.Natives

namespace Program

/-- The definition of a name. -/
def find? (P : Program) (name : DefName) : Option Definition :=
  P.definitions.find? fun d => d.name = name

/-- The function of a name. -/
def function? (P : Program) (name : DefName) : Option Function :=
  match P.find? name with
  | some (.function f) => some f
  | _ => none

/-- The native function behind the builtin of a name. -/
def native? (P : Program) (name : DefName) : Option Eval.Native :=
  match P.find? name with
  | some (.builtin _) => Keyed.find? name P.natives
  | _ => none

/-- The function that a tag stands for. -/
def body? (P : Program) (tag : Nat) : Option Function := do
  P.function? (← P.closures.bodies[tag]?)

end Program

/-- The values that a closure captures, under their names. -/
def captured? (ρ : List Value) : List Capture → Option (List (String × Value))
  | [] => some []
  | c :: rest => do
    let w ← ρ[c.v.level]?
    return (c.v.name, w) :: (← captured? ρ rest)

mutual

/-- The value of a type without slots: a tuple of such values. -/
def Ty.blank? : Ty → Option Value
  | .tuple es => (blanks? es).map .tuple
  | _ => none

/-- The values of several types without slots. -/
def Ty.blanks? : List Ty → Option (List Value)
  | [] => some []
  | t :: ts => do
    let w ← Ty.blank? t
    return w :: (← blanks? ts)

end

section

variable (P : Program)

mutual

/-- The value of a term in an environment. -/
inductive Evaluates : List Value → Term → Value → Prop
  | literal {ρ ty l} : Evaluates ρ (.literal ty l) (.literal l)
  | array {ρ ty kind es ws} : EvaluatesAll ρ es ws →
      Evaluates ρ (.array ty kind es) (.array kind ws)
  | list {ρ ty es ws} : EvaluatesAll ρ es ws → Evaluates ρ (.list ty es) (.list ws)
  | compound {ρ ty fields ws} : EvaluatesFields ρ fields ws →
      Evaluates ρ (.compound ty fields) (.compound ws)
  | ref {ρ ty e w} : Evaluates ρ e w → Evaluates ρ (.ref ty e) (.ref w)
  | tuple {ρ ty es ws} : EvaluatesAll ρ es ws → Evaluates ρ (.tuple ty es) (.tuple ws)
  | closure {ρ ty tag captures cs} : captured? ρ captures = some cs →
      Evaluates ρ (.closure ty tag captures) (.closure tag cs)
  | branch {ρ ty c a thenName elseName b w r} : Evaluates ρ c (.literal (.bool b)) →
      Evaluates ρ a w → Runs (if b then thenName else elseName) w r →
      Evaluates ρ (.branch ty c a thenName elseName) r
  | letIn {ρ ty p i b w ws r} : Evaluates ρ i w → p.bind? w = some ws →
      Evaluates (ρ ++ ws) b r → Evaluates ρ (.letIn ty p i b) r
  | var {ρ ty v w} : ρ[v.level]? = some w → Evaluates ρ (.var ty v) w
  | call {ρ ty name a w r} : name ≠ dispatcher → Evaluates ρ a w → Runs name w r →
      Evaluates ρ (.call ty name a) r
  | dispatch {ρ ty a w tag cs name r} : Evaluates ρ a (.tuple [w, .closure tag cs]) →
      P.closures.bodies[tag]? = some name → Runs name (.tuple [w, .compound cs]) r →
      Evaluates ρ (.call ty dispatcher a) r
  | test {ρ ty e p w b} : Evaluates ρ e w → p.matches? w = some b →
      Evaluates ρ (.test ty e p) (.literal (.bool b))
  | command {ρ ty line w} : ty.blank? = some w → Evaluates ρ (.command ty line) w

/-- The values of several terms. -/
inductive EvaluatesAll : List Value → List Term → List Value → Prop
  | nil {ρ} : EvaluatesAll ρ [] []
  | cons {ρ t ts w ws} : Evaluates ρ t w → EvaluatesAll ρ ts ws →
      EvaluatesAll ρ (t :: ts) (w :: ws)

/-- The values of the fields of a record. -/
inductive EvaluatesFields : List Value → List (String × Term) → List (String × Value) → Prop
  | nil {ρ} : EvaluatesFields ρ [] []
  | cons {ρ key t rest w ws} : Evaluates ρ t w → EvaluatesFields ρ rest ws →
      EvaluatesFields ρ ((key, t) :: rest) ((key, w) :: ws)

/-- What the definition of a name gives on a value. -/
inductive Runs : DefName → Value → Value → Prop
  | function {name f w ws r} : P.function? name = some f → f.binder.bind? w = some ws →
      Evaluates ws f.body r → Runs name w r
  | builtin {name n w r} : P.native? name = some n → native? n w = some r → Runs name w r

end

end

section

variable {P : Program} {name : DefName} {w r : Value}

/-- Where the program has a function, running its name runs the function. -/
theorem Runs.of_function {f : Function} (h : Runs P name w r) (hf : P.function? name = some f) :
    ∃ ws, f.binder.bind? w = some ws ∧ Evaluates P ws f.body r := by
  cases h with
  | function hg hws hr =>
    rw [hf] at hg
    cases hg
    exact ⟨_, hws, hr⟩
  | builtin hn _ =>
    unfold Program.function? at hf
    unfold Program.native? at hn
    split at hf
    · next hfind => rw [hfind] at hn; cases hn
    · cases hf

/-- Where the program has a builtin, running its name runs the native function behind it. -/
theorem Runs.of_builtin {b : Builtin} (h : Runs P name w r)
    (hb : P.find? name = some (.builtin b)) :
    ∃ n, Keyed.find? name P.natives = some n ∧ native? n w = some r := by
  cases h with
  | function hf _ _ =>
    rw [Program.function?, hb] at hf
    cases hf
  | builtin hn hr =>
    rw [Program.native?, hb] at hn
    exact ⟨_, hn, hr⟩

end

/-- A pair binder takes a pair apart. -/
theorem bind?_pair {p q : Pattern} {v w : Value} {ws : List Value}
    (h : (Pattern.ofTuple [p, q]).bind? (.tuple [v, w]) = some ws) :
    ∃ ws₁ ws₂, p.bind? v = some ws₁ ∧ q.bind? w = some ws₂ ∧ ws = ws₁ ++ ws₂ := by
  simp only [Pattern.ofTuple, Pattern.bind?, List.length_cons, List.length_nil, if_pos,
    Pattern.bindAll?, Option.bind_eq_bind, Option.bind_eq_some_iff, Option.pure_def,
    Option.some.injEq] at h
  obtain ⟨ws₁, hp, rest, ⟨ws₂, hq, tail, rfl, rfl⟩, rfl⟩ := h
  exact ⟨ws₁, ws₂, hp, hq, by rw [List.append_nil]⟩

end Stagecraft.Flat
