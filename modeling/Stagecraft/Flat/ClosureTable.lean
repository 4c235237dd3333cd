import Stagecraft.Name

/-!
# The table of closure bodies

All closure bodies of a program, in the order in which they were converted. The place of a body is
the tag that its function values carry at run time.
-/

namespace Stagecraft.Flat

/-- The definition that every application of a function value calls. -/
def dispatcher : DefName := ⟨["mcx"], "dispatch"⟩

/-- The closure bodies by tag. -/
structure ClosureTable where
  bodies : List DefName
deriving DecidableEq

namespace ClosureTable

/-- No bodies. -/
def empty : ClosureTable := ⟨[]⟩

instance : Inhabited ClosureTable := ⟨empty⟩

/-- The number of bodies, which is the next tag. -/
def size (t : ClosureTable) : Nat := t.bodies.length

/-- The table with more bodies at its end. -/
def append (t : ClosureTable) (bodies : List DefName) : ClosureTable := ⟨t.bodies ++ bodies⟩

@[simp] theorem size_append (t : ClosureTable) (bodies : List DefName) :
    (t.append bodies).size = t.size + bodies.length := by
  simp [append, size]

/-- The bodies with their tags, in order. -/
def tagged (t : ClosureTable) : List (Nat × DefName) :=
  t.bodies.zipIdx.map fun e => (e.2, e.1)

end ClosureTable

end Stagecraft.Flat
