import Stagecraft.Staged.Term
import Stagecraft.NameSet

/-!
# Free variables by name

The names that occur in a term outside the scope of a binder of that name, in the order of first
use. A binder hides its names in its body only, not in its initializer.
-/

namespace Stagecraft.Staged

/-- The names that a pattern binds, by first occurrence. -/
def Pattern.names (p : Pattern) : NameSet := NameSet.ofList (p.binders.map (·.name))

namespace Term

mutual

/-- The free names of a term, in the order of first use. -/
def freeNames : Term → NameSet
  | .literal .. | .command .. | .hole _ => .empty
  | .array _ _ es | .list _ es | .tuple _ es => freeNamesOfAll .empty es
  | .compound _ fields => freeNamesOfFields .empty fields
  | .ref _ e | .quote _ e | .splice _ e => e.freeNames
  | .lambda _ p b => b.freeNames \ p.names
  | .apply _ f a => f.freeNames ++ a.freeNames
  | .cond _ c a b => c.freeNames ++ a.freeNames ++ b.freeNames
  | .letIn _ p i b => i.freeNames ++ (b.freeNames \ p.names)
  | .var _ v => .singleton v.name
  | .call _ _ a => a.freeNames
  | .test _ e _ => e.freeNames

/-- The names of `seen` and then the free names of several terms. -/
def freeNamesOfAll (seen : NameSet) : List Term → NameSet
  | [] => seen
  | t :: ts => freeNamesOfAll (seen ++ t.freeNames) ts

/-- The names of `seen` and then the free names of the fields of a record. -/
def freeNamesOfFields (seen : NameSet) : List (String × Term) → NameSet
  | [] => seen
  | (_, t) :: rest => freeNamesOfFields (seen ++ t.freeNames) rest

end

end Term

end Stagecraft.Staged
