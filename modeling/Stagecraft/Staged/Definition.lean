import Stagecraft.Staged.Term

/-!
# Definitions and definition tables

A table holds the definitions of a compilation unit in the order of their first insertion, one
under each name.
-/

namespace Stagecraft.Staged

/-- A function; its parameter type is the type of the binder. -/
structure Function where
  marks : List Mark
  name : DefName
  binder : Pattern
  result : Ty
  body : Term
deriving Inhabited

/-- Whether a function carries a mark. -/
def Function.has (f : Function) (a : Mark) : Bool := f.marks.contains a

/-- A data-driven asset. -/
structure Resource where
  marks : List Mark
  registry : Registry
  name : DefName
  body : Term
deriving Inhabited

/-- A name for a type. -/
structure TypeAlias where
  marks : List Mark
  name : DefName
  body : Ty
deriving Inhabited

/-- A top-level definition. -/
inductive Definition where
  | resource (r : Resource)
  | function (f : Function)
  | alias (a : TypeAlias)
deriving Inhabited

/-- The name of a definition. -/
def Definition.name : Definition → DefName
  | .resource r => r.name
  | .function f => f.name
  | .alias a => a.name

/-- The text of what a definition stands for: its body, or the type an alias names. -/
def Definition.bodyText : Definition → String
  | .resource r => r.body.text
  | .function f => f.body.text
  | .alias a => a.body.text

/-- Definitions under distinct names. -/
structure Table where
  definitions : List Definition
  nodup : (definitions.map Definition.name).Nodup

namespace Table

/-- No definitions. -/
def empty : Table := ⟨[], List.nodup_nil⟩

instance : Inhabited Table := ⟨empty⟩

/-- A list of definitions with one put under its name: in place, or at the end. -/
def put (d : Definition) : List Definition → List Definition
  | [] => [d]
  | e :: rest => if e.name = d.name then d :: rest else e :: put d rest

theorem map_name_put (d : Definition) (ds : List Definition) :
    (put d ds).map Definition.name =
      if d.name ∈ ds.map Definition.name then ds.map Definition.name
      else ds.map Definition.name ++ [d.name] := by
  induction ds with
  | nil => simp [put]
  | cons e rest ih =>
    by_cases h : e.name = d.name
    · simp [put, h]
    · have h' : ¬ d.name = e.name := fun k => h k.symm
      simp only [put, h, if_false, List.map_cons, ih, List.mem_cons, h', false_or]
      by_cases hm : d.name ∈ rest.map Definition.name <;> simp [hm]

/-- The table with a definition under its name: an earlier one of that name is replaced where it
stands. -/
def insert (t : Table) (d : Definition) : Table :=
  ⟨put d t.definitions, by
    rw [map_name_put]
    split
    · exact t.nodup
    · next h =>
      refine List.nodup_append.2 ⟨t.nodup, by simp, ?_⟩
      intro a ha b hb e
      rw [List.mem_singleton] at hb
      exact h (hb ▸ e ▸ ha)⟩

/-- The table of a list of definitions: the first one of a name gives its position, the last one
its content. -/
def ofList (ds : List Definition) : Table := ds.foldl insert empty

/-- The number of definitions. -/
def size (t : Table) : Nat := t.definitions.length

/-- The definition of a name. -/
def find? (t : Table) (name : DefName) : Option Definition :=
  t.definitions.find? fun d => d.name = name

/-- The function of a name. -/
def function? (t : Table) (name : DefName) : Option Function :=
  match t.find? name with
  | some (.function f) => some f
  | _ => none

/-- What a type alias of this name stands for, one step. -/
def alias? (t : Table) (name : DefName) : Option Ty :=
  match t.find? name with
  | some (.alias a) => some a.body
  | _ => none

end Table

end Stagecraft.Staged
