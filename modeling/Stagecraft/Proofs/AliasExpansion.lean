import Mathlib.Data.List.Chain
import Mathlib.Data.List.Duplicate
import Mathlib.Logic.Relation
import Stagecraft.Eval.ReadBack
import Stagecraft.Flat.TyOfStaged
import Stagecraft.Proofs.Termination

/-!
# How far aliases are expanded

Three functions expand type aliases and stop after as many expansions as the table has definitions:
the code depth of a type, its flat form, and the type behind an alias. Each of them gives, at every
type, what it gives at the parts and at the bodies of the aliases in it, unless it gives up
(`codeDepth_cases`, `Ty.ofStaged_cases`, `resolve_cases`). It gives up on aliases that reach
themselves through the positions that it descends into, as there is one name too many on its way for
all of them to be different (`Table.cyclic_or_complete`).

Looking behind an alias is allowed one step more than the other two. So these also give up on a way
without a cycle: one through every definition of the table, in which all of them are aliases, that
ends in a name without a definition.
-/

namespace Stagecraft.Staged

/-! ## Aliases that reach each other -/

section

variable (table : Table) (positions : Ty → List DefName)

/-- The body of the first alias has the second one at one of the positions. -/
def Table.Leads (a b : DefName) : Prop :=
  ∃ body, table.alias? a = some body ∧ b ∈ positions body

/-- A type has an alias at one of the positions that leads to one which leads to itself. -/
def Table.IsCyclicAt (ty : Ty) : Prop :=
  ∃ a ∈ positions ty, ∃ b, Relation.ReflTransGen (table.Leads positions) a b ∧
    Relation.TransGen (table.Leads positions) b b

/-- Every definition of a table is an alias. -/
def Table.OnlyAliases : Prop := ∀ d ∈ table.definitions, ∃ body, table.alias? d.name = some body

/-- Some way of a number of expansions goes from an alias to a name. -/
structure Table.Way (n : Nat) (a name : DefName) (path : List DefName) : Prop where
  chain : (path ++ [name]).IsChain (table.Leads positions)
  start : (path ++ [name]).head? = some a
  length_eq : path.length = n

end

section

variable {table : Table} {positions : Ty → List DefName} {n : Nat} {a b name : DefName}
  {path : List DefName} {ty : Ty}

theorem Table.Leads.mem (h : table.Leads positions a b) :
    a ∈ table.definitions.map Definition.name := by
  obtain ⟨body, hbody, -⟩ := h
  exact mem_of_alias? hbody

namespace Table.Way

theorem here : table.Way positions 0 a a [] := ⟨.singleton a, rfl, rfl⟩

theorem cons {body : Ty} (h : table.Way positions n b name path) (ha : table.alias? a = some body)
    (hb : b ∈ positions body) : table.Way positions (n + 1) a name (a :: path) := by
  refine ⟨List.isChain_cons.2 ⟨fun c hc => ?_, h.chain⟩, rfl, congrArg (· + 1) h.length_eq⟩
  cases h.start.symm.trans hc
  exact ⟨body, ha, hb⟩

/-- Every alias on the way leads on. -/
theorem exists_leads (h : table.Way positions n a name path) {c : DefName} (hc : c ∈ path) :
    ∃ d, table.Leads positions c d := by
  obtain ⟨before, after, rfl⟩ := List.append_of_mem hc
  have hrest := (List.isChain_append.1 (List.append_assoc .. ▸ h.chain)).2.1
  obtain ⟨d, hd⟩ : ∃ d, (after ++ [name]).head? = some d := by
    cases after <;> exact ⟨_, rfl⟩
  exact ⟨d, (List.isChain_cons.1 hrest).1 d hd⟩

theorem subset (h : table.Way positions n a name path) :
    path ⊆ table.definitions.map Definition.name := by
  intro c hc
  obtain ⟨d, hd⟩ := h.exists_leads hc
  exact hd.mem

theorem pairwise (h : table.Way positions n a name path) :
    (path ++ [name]).Pairwise (Relation.TransGen (table.Leads positions)) :=
  (h.chain.imp fun _ _ => Relation.TransGen.single).pairwise

/-- The first alias leads to everything on the way. -/
theorem reaches (h : table.Way positions n a name path) {c : DefName} (hc : c ∈ path ++ [name]) :
    Relation.ReflTransGen (table.Leads positions) a c := by
  have hpairs := h.pairwise
  have hstart := h.start
  cases hpath : path ++ [name] with
  | nil => cases (List.append_eq_nil_iff.1 hpath).2
  | cons a' rest =>
    rw [hpath] at hpairs hstart hc
    cases hstart
    rcases List.mem_cons.1 hc with rfl | hc
    · exact .refl
    · exact ((List.pairwise_cons.1 hpairs).1 c hc).to_reflTransGen

end Table.Way

/-- A way of as many expansions as there are definitions meets an alias twice, or it goes through
all definitions and leaves the table. -/
theorem Table.cyclic_or_complete (h : table.Way positions table.size a name path)
    (ha : a ∈ positions ty) :
    table.IsCyclicAt positions ty ∨ (table.OnlyAliases ∧ table.find? name = none) := by
  by_cases hnodup : (path ++ [name]).Nodup
  · obtain ⟨hpath, -, hname⟩ := List.nodup_append.1 hnodup
    have hlen : (table.definitions.map Definition.name).length ≤ path.length := by
      rw [List.length_map, h.length_eq]
      exact le_rfl
    have hperm := (List.subperm_of_subset hpath h.subset).perm_of_length_le hlen
    refine .inr ⟨fun d hd => ?_, List.find?_eq_none.2 fun d hd => ?_⟩
    · obtain ⟨c, body, hbody, -⟩ := h.exists_leads (hperm.mem_iff.2 (List.mem_map_of_mem hd))
      exact ⟨body, hbody⟩
    · intro heq
      have hmem := hperm.mem_iff.2 (List.mem_map_of_mem hd)
      exact hname _ hmem _ (List.mem_singleton_self name) (of_decide_eq_true heq)
  · obtain ⟨b, hb⟩ := List.exists_duplicate_iff_not_nodup.2 hnodup
    have hcycle := h.pairwise.sublist (List.duplicate_iff_sublist.1 hb)
    exact .inl ⟨a, ha, b, h.reaches hb.mem,
      (List.pairwise_cons.1 hcycle).1 b (List.mem_singleton_self b)⟩

end

/-! ## Expanding a type with two bounds -/

/-- What two bounds on the expansion of a type give: the same, where errors are the type's own, or
the smaller bound gives up on one of the aliases of the type. -/
def Expansion {ε α : Type} (own : ε → Prop) (up : DefName → ε → Prop) (names : List DefName)
    (x y : Except ε α) : Prop :=
  (x = y ∧ ∀ e, x = .error e → own e) ∨ ∃ a ∈ names, ∃ e, x = .error e ∧ up a e

namespace Expansion

variable {ε α β : Type} {own : ε → Prop} {up : DefName → ε → Prop} {names names' : List DefName}

theorem ok (a : α) : Expansion own up names (.ok a) (.ok a) := .inl ⟨rfl, nofun⟩

theorem error {e : ε} (h : own e) :
    Expansion own up names (.error e : Except ε α) (.error e) := by
  refine .inl ⟨rfl, fun e' he => ?_⟩
  cases he
  exact h

theorem mono {x y : Except ε α} (h : Expansion own up names x y) (hle : names ⊆ names') :
    Expansion own up names' x y :=
  h.imp_right fun ⟨a, ha, hup⟩ => ⟨a, hle ha, hup⟩

theorem bind {x y : Except ε α} {f g : α → Except ε β} (h : Expansion own up names x y)
    (hf : ∀ a, Expansion own up names' (f a) (g a)) :
    Expansion own up (names ++ names') (x >>= f) (y >>= g) := by
  rcases h with ⟨rfl, hown⟩ | ⟨a, ha, e, rfl, hup⟩
  · cases x with
    | error e => exact error (hown e rfl)
    | ok a => exact (hf a).mono (List.subset_append_right ..)
  · exact .inr ⟨a, List.mem_append_left _ ha, e, rfl, hup⟩

theorem map {x y : Except ε α} (f : α → β) (h : Expansion own up names x y) :
    Expansion own up names (do return f (← x)) (do return f (← y)) := by
  have hbind : Expansion own up (names ++ []) (do return f (← x)) (do return f (← y)) :=
    h.bind fun a => ok (f a)
  rwa [List.append_nil] at hbind

end Expansion

end Stagecraft.Staged

/-! ## Code depth -/

namespace Stagecraft.Staged

mutual

/-- The aliases at the positions that the code depth of a type depends on. -/
def Ty.depthAliases : Ty → List DefName
  | .alias name => [name]
  | .list e | .ref e | .code e => e.depthAliases
  | .compound fields => depthAliasesOfFields fields
  | .tuple es => depthAliasesOfAll es
  | .scalar _ | .singleton _ | .array _ | .function .. | .union _ | .var _ | .hole => []

/-- The aliases that the code depth of several types depends on. -/
def Ty.depthAliasesOfAll : List Ty → List DefName
  | [] => []
  | t :: ts => t.depthAliases ++ depthAliasesOfAll ts

/-- The aliases that the code depth of the fields of a record type depends on. -/
def Ty.depthAliasesOfFields : List (String × Ty) → List DefName
  | [] => []
  | (_, t) :: rest => t.depthAliases ++ depthAliasesOfFields rest

end

end Stagecraft.Staged

namespace Stagecraft.Residual

open Staged (Ty Table Expansion)

section

variable {f g : DefName → Except Error Nat} {up : DefName → Error → Prop}
  (h : ∀ a, Expansion (· = .unexpectedHole) up [a] (f a) (g a))

include h

mutual

theorem depthWith_expansion : ∀ ty : Ty,
    Expansion (· = .unexpectedHole) up ty.depthAliases (depthWith f ty) (depthWith g ty)
  | .scalar _ | .singleton _ | .array _ | .function .. | .union _ | .var _ => .ok 0
  | .list e | .ref e => depthWith_expansion e
  | .code e => (depthWith_expansion e).map (· + 1)
  | .compound fields => deepestField_expansion fields 0
  | .tuple es => deepest_expansion es 0
  | .alias name => h name
  | .hole => .error rfl

theorem deepest_expansion : ∀ (ts : List Ty) (least : Nat),
    Expansion (· = .unexpectedHole) up (Ty.depthAliasesOfAll ts) (deepest f least ts)
      (deepest g least ts)
  | [], least => .ok least
  | t :: ts, least =>
    (depthWith_expansion t).bind fun depth => deepest_expansion ts (max least depth)

theorem deepestField_expansion : ∀ (fields : List (String × Ty)) (least : Nat),
    Expansion (· = .unexpectedHole) up (Ty.depthAliasesOfFields fields)
      (deepestField f least fields) (deepestField g least fields)
  | [], least => .ok least
  | (_, t) :: rest, least =>
    (depthWith_expansion t).bind fun depth => deepestField_expansion rest (max least depth)

end

end

/-- One expansion more gives the same, unless the expansions that there are do not get to the end of
some way. -/
theorem depthWithin_expansion (table : Table) : ∀ (n : Nat) (ty : Ty),
    Expansion (· = .unexpectedHole)
      (fun a e => ∃ name path, table.Way Ty.depthAliases n a name path ∧ e = .cyclicAlias name)
      ty.depthAliases (depthWithin table n ty) (depthWithin table (n + 1) ty)
  | 0, ty => depthWith_expansion
    (fun a => .inr ⟨a, List.mem_singleton_self a, _, rfl, a, [], .here, rfl⟩) ty
  | n + 1, ty => by
    refine depthWith_expansion (fun a => ?_) ty
    cases ha : table.alias? a with
    | none => exact .ok 0
    | some body =>
      rcases depthWithin_expansion table n body with hsame | ⟨b, hb, e, he, name, path, hway, rfl⟩
      · exact .inl hsame
      · exact .inr ⟨a, List.mem_singleton_self a, _, he, name, a :: path, hway.cons ha hb, rfl⟩

/-- The code depth of a type comes from those of its parts and of the bodies of its aliases, where
an alias without a definition counts as zero; or it is given up on. -/
theorem codeDepth_cases (table : Table) (ty : Ty) :
    (codeDepth table ty = depthWith (fun name =>
        match table.alias? name with
        | some body => codeDepth table body
        | none => .ok 0) ty ∧
      ∀ e, codeDepth table ty = .error e → e = .unexpectedHole) ∨
    ∃ name, codeDepth table ty = .error (.cyclicAlias name) ∧
      (table.IsCyclicAt Ty.depthAliases ty ∨ (table.OnlyAliases ∧ table.find? name = none)) := by
  rcases depthWithin_expansion table table.size ty with
    hsame | ⟨a, ha, e, he, name, path, hway, rfl⟩
  · exact .inl hsame
  · exact .inr ⟨name, he, Table.cyclic_or_complete hway ha⟩

example (name : DefName) : codeDepth .empty (.alias name) = .error (.cyclicAlias name) := rfl

end Stagecraft.Residual

/-! ## Flat types -/

namespace Stagecraft.Staged

mutual

/-- The aliases at the positions that the flat form of a type depends on. -/
def Ty.flatAliases : Ty → List DefName
  | .alias name => [name]
  | .list e | .ref e => e.flatAliases
  | .compound fields => flatAliasesOfFields fields
  | .tuple es | .union es => flatAliasesOfAll es
  | .function param result => param.flatAliases ++ result.flatAliases
  | .scalar _ | .singleton _ | .array _ | .code _ | .var _ | .hole => []

/-- The aliases that the flat forms of several types depend on. -/
def Ty.flatAliasesOfAll : List Ty → List DefName
  | [] => []
  | t :: ts => t.flatAliases ++ flatAliasesOfAll ts

/-- The aliases that the flat forms of the fields of a record type depend on. -/
def Ty.flatAliasesOfFields : List (String × Ty) → List DefName
  | [] => []
  | (_, t) :: rest => t.flatAliases ++ flatAliasesOfFields rest

end

end Stagecraft.Staged

namespace Stagecraft.Flat

open Staged (Table Expansion)

/-- The errors that a staged type has no flat form for, whatever the aliases in it are. -/
inductive Error.IsOfType : Error → Prop
  | hole : IsOfType .unexpectedHole
  | code : IsOfType .unexpectedStaging
  | var (v) : IsOfType (.unexpectedType (Staged.Ty.var v).text)
  | undefined (name) : IsOfType (.unresolvedDefinition name)

section

variable {f g : DefName → Except Error Ty} {up : DefName → Error → Prop}
  (h : ∀ a, Expansion Error.IsOfType up [a] (f a) (g a))

include h

mutual

theorem tyWith_expansion : ∀ ty : Staged.Ty,
    Expansion Error.IsOfType up ty.flatAliases (tyWith f ty) (tyWith g ty)
  | .scalar _ | .singleton _ | .array _ => .ok _
  | .list e | .ref e => (tyWith_expansion e).map _
  | .compound fields => (fieldTysWith_expansion fields).map _
  | .tuple es | .union es => (tysWith_expansion es).map _
  | .function param result =>
    (tyWith_expansion param).bind fun _ => (tyWith_expansion result).map _
  | .code _ => .error .code
  | .var v => .error (.var v)
  | .alias name => h name
  | .hole => .error .hole

theorem tysWith_expansion : ∀ ts : List Staged.Ty,
    Expansion Error.IsOfType up (Staged.Ty.flatAliasesOfAll ts) (tysWith f ts) (tysWith g ts)
  | [] => .ok []
  | t :: ts => (tyWith_expansion t).bind fun _ => (tysWith_expansion ts).map _

theorem fieldTysWith_expansion : ∀ fields : List (String × Staged.Ty),
    Expansion Error.IsOfType up (Staged.Ty.flatAliasesOfFields fields) (fieldTysWith f fields)
      (fieldTysWith g fields)
  | [] => .ok []
  | (_, t) :: rest => (tyWith_expansion t).bind fun _ => (fieldTysWith_expansion rest).map _

end

end

/-- One expansion more gives the same, unless the expansions that there are do not get to the end of
some way. -/
theorem tyWithin_expansion (table : Table) : ∀ (n : Nat) (ty : Staged.Ty),
    Expansion Error.IsOfType
      (fun a e => ∃ name path, table.Way Staged.Ty.flatAliases n a name path ∧
        e = .unexpectedType (Staged.Ty.alias name).text)
      ty.flatAliases (tyWithin table n ty) (tyWithin table (n + 1) ty)
  | 0, ty => tyWith_expansion
    (fun a => .inr ⟨a, List.mem_singleton_self a, _, rfl, a, [], .here, rfl⟩) ty
  | n + 1, ty => by
    refine tyWith_expansion (fun a => ?_) ty
    cases ha : table.alias? a with
    | none => exact .error (.undefined a)
    | some body =>
      rcases tyWithin_expansion table n body with hsame | ⟨b, hb, e, he, name, path, hway, rfl⟩
      · exact .inl hsame
      · exact .inr ⟨a, List.mem_singleton_self a, _, he, name, a :: path, hway.cons ha hb, rfl⟩

/-- The flat form of a type comes from those of its parts and of the bodies of its aliases, where an
alias without a definition is reported as such; or it is given up on. -/
theorem Ty.ofStaged_cases (table : Table) (ty : Staged.Ty) :
    (Ty.ofStaged table ty = tyWith (fun name =>
        match table.alias? name with
        | some body => Ty.ofStaged table body
        | none => .error (.unresolvedDefinition name)) ty ∧
      ∀ e, Ty.ofStaged table ty = .error e → e.IsOfType) ∨
    ∃ name, Ty.ofStaged table ty = .error (.unexpectedType (Staged.Ty.alias name).text) ∧
      (table.IsCyclicAt Staged.Ty.flatAliases ty ∨
        (table.OnlyAliases ∧ table.find? name = none)) := by
  rcases tyWithin_expansion table table.size ty with hsame | ⟨a, ha, e, he, name, path, hway, rfl⟩
  · exact .inl hsame
  · exact .inr ⟨name, he, Table.cyclic_or_complete hway ha⟩

end Stagecraft.Flat

/-! ## The type behind an alias -/

namespace Stagecraft.Staged

/-- The alias that a type is. -/
def Ty.aliasNames : Ty → List DefName
  | .alias name => [name]
  | _ => []

end Stagecraft.Staged

namespace Stagecraft.Eval

open Staged (Ty Table Expansion)

/-- One look more gives the same, unless the looks that there are end at an alias with a
definition. -/
theorem resolveWithin_expansion (table : Table) : ∀ (n : Nat) (ty : Ty),
    Expansion (· = .unexpectedHole)
      (fun a e => ∃ name path, table.Way Ty.aliasNames n a name path ∧
        (table.find? name).isSome = true ∧ ∃ text, e = .illTyped "alias" text)
      ty.aliasNames (resolveWithin table (n + 1) ty) (resolveWithin table (n + 2) ty)
  | n, .alias name => by
    rw [resolveWithin, resolveWithin]
    cases ha : table.alias? name with
    | none => exact .ok _
    | some body =>
      cases n with
      | zero =>
        have hsome : (table.find? name).isSome = true := by
          obtain ⟨_, hmem⟩ := Table.exists_mem_of_alias? ha
          exact List.find?_isSome.2 ⟨_, hmem, decide_eq_true rfl⟩
        exact .inr ⟨name, List.mem_singleton_self name, _, rfl, name, [], .here, hsome, _, rfl⟩
      | succ n =>
        rcases resolveWithin_expansion table n body with
          hsame | ⟨b, hb, e, he, last, path, hway, hlast⟩
        · exact .inl hsame
        · exact .inr ⟨name, List.mem_singleton_self name, e, he, last, name :: path,
            hway.cons ha hb, hlast⟩
  | _, .hole => .error rfl
  | _, .scalar _ | _, .singleton _ | _, .array _ | _, .list _ | _, .compound _ | _, .ref _
  | _, .tuple _ | _, .function .. | _, .union _ | _, .code _ | _, .var _ => .ok _

/-- The type behind an alias is the one behind its body, where an alias without a definition is its
own; or it is given up on, if the alias leads to one that leads to itself. -/
theorem resolve_cases (table : Table) (ty : Ty) :
    ((∀ name, ty = .alias name → resolve table ty =
        match table.alias? name with
        | some body => resolve table body
        | none => .ok ty) ∧
      ∀ e, resolve table ty = .error e → e = .unexpectedHole) ∨
    ∃ text, resolve table ty = .error (.illTyped "alias" text) ∧
      table.IsCyclicAt Ty.aliasNames ty := by
  rcases resolveWithin_expansion table table.size ty with
    ⟨hsame, hown⟩ | ⟨a, ha, e, he, name, path, hway, hname, text, rfl⟩
  · refine .inl ⟨?_, hown⟩
    rintro name rfl
    exact hsame
  · refine .inr ⟨text, he, (Table.cyclic_or_complete hway ha).resolve_right ?_⟩
    rintro ⟨-, hnone⟩
    rw [hnone] at hname
    cases hname

end Stagecraft.Eval
