/-!
# Qualified names of definitions

A definition is known by the path of its module and its own name.
-/

namespace Stagecraft

/-- A fully qualified top-level name: the components of the module path, outermost first, and
the definition's own name. -/
structure DefName where
  path : List String
  name : String
deriving DecidableEq, Inhabited, Repr

namespace DefName

/-- The module path with its components separated by slashes. -/
def pathText (n : DefName) : String :=
  String.intercalate "/" n.path

/-- A qualified name reads `a/b::name`. -/
def text (n : DefName) : String :=
  n.pathText ++ "::" ++ n.name

/-- The name with its last part replaced, in the same module. -/
def sibling (n : DefName) (name : String) : DefName :=
  { n with name }

end DefName

end Stagecraft
