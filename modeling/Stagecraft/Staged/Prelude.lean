import Stagecraft.Staged.Inferred
import Stagecraft.Staged.Definition

/-!
# The prelude

The interfaces of the integer functions that every program can use. Their bodies are holes: they are
implemented by the evaluator at compile time and by the target at run time.
-/

namespace Stagecraft.Staged

/-- A name in the module `prelude`. -/
def preludeName (name : String) : DefName := ⟨["prelude"], name⟩

/-- The interface of a function on a pair of integers. -/
def preludeFunction (name : String) (result : Ty) : Definition :=
  .function {
    marks := [.builtin]
    name := preludeName name
    binder := .var (Pattern.plain (.tuple [.int, .int])) ⟨"arg", 0⟩
    result := result
    body := .hole result }

/-- Sum, difference, product and the two comparisons. -/
def prelude : List Definition :=
  [preludeFunction "int_add" .int, preludeFunction "int_sub" .int, preludeFunction "int_mul" .int,
    preludeFunction "int_eq" .bool, preludeFunction "int_lt" .bool]

end Stagecraft.Staged
