/-!
# Ordered sets of names

Names without repetition, in the order in which they were first added. Two sets are compared
without regard to that order.
-/

namespace Stagecraft

/-- Distinct names, first added first. -/
structure NameSet where
  names : List String
  nodup : names.Nodup := by decide

namespace NameSet

/-- No names. -/
def empty : NameSet := ⟨[], List.nodup_nil⟩

instance : Inhabited NameSet := ⟨empty⟩

/-- One name. -/
def singleton (name : String) : NameSet := ⟨[name], by simp⟩

/-- Whether a name is in the set. -/
def contains (s : NameSet) (name : String) : Bool := s.names.contains name

/-- The set with a name added at the end, unless it is there already. -/
def add (s : NameSet) (name : String) : NameSet :=
  if h : name ∈ s.names then s
  else ⟨s.names ++ [name], by
    refine List.nodup_append.2 ⟨s.nodup, by simp, ?_⟩
    intro a ha b hb e
    rw [List.mem_singleton] at hb
    exact h (hb ▸ e ▸ ha)⟩

/-- The distinct names of a list, by first occurrence. -/
def ofList (names : List String) : NameSet := names.foldl add empty

/-- Both sets, the names of the first one first. -/
def union (s t : NameSet) : NameSet := t.names.foldl add s

/-- The names of the first set that are not in the second. -/
def diff (s t : NameSet) : NameSet :=
  ⟨s.names.filter (fun n => !t.contains n), s.nodup.sublist List.filter_sublist⟩

/-- Whether two sets have the same names, in any order. -/
def sameNames (s t : NameSet) : Bool :=
  s.names.all t.contains && t.names.all s.contains

theorem mem_names_add {s : NameSet} {name n : String} :
    n ∈ (s.add name).names ↔ n ∈ s.names ∨ n = name := by
  rw [add]
  split
  · next h => exact ⟨.inl, fun k => k.elim id fun e => e ▸ h⟩
  · simp

theorem mem_names_foldl_add (names : List String) (s : NameSet) {n : String} :
    n ∈ (names.foldl add s).names ↔ n ∈ s.names ∨ n ∈ names := by
  induction names generalizing s with
  | nil => simp
  | cons m rest ih => rw [List.foldl_cons, ih, mem_names_add, List.mem_cons, or_assoc]

theorem mem_names_ofList {names : List String} {n : String} :
    n ∈ (ofList names).names ↔ n ∈ names := by
  simp [ofList, mem_names_foldl_add, empty]

theorem mem_names_union {s t : NameSet} {n : String} :
    n ∈ (s.union t).names ↔ n ∈ s.names ∨ n ∈ t.names :=
  mem_names_foldl_add t.names s

theorem mem_names_diff {s t : NameSet} {n : String} :
    n ∈ (s.diff t).names ↔ n ∈ s.names ∧ n ∉ t.names := by
  simp [diff, contains]

instance : Append NameSet := ⟨union⟩

instance : SDiff NameSet := ⟨diff⟩

end NameSet

end Stagecraft
