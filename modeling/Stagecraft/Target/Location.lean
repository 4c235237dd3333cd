import Stagecraft.Name
import Stagecraft.Text.Escaped

/-!
# Locations in a data pack
-/

namespace Stagecraft.Target

/-- A place in a data pack. -/
structure Location where
  nspace : String
  path : String
deriving DecidableEq, Inhabited, Repr

namespace Location

/-- A location reads `namespace:path`. -/
def text (l : Location) : String := l.nspace ++ ":" ++ l.path

/-- The location of a definition: its module path and then its name, with the name escaped. -/
def ofName (nspace : String) (n : DefName) : Location :=
  ⟨nspace, String.intercalate "/" (n.path ++ [Text.escaped n.name])⟩

end Location

end Stagecraft.Target
