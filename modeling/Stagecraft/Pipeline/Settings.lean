import Stagecraft.Emit.Code
import Stagecraft.Eval.Evaluate

/-!
# Settings of a build
-/

namespace Stagecraft.Pipeline

/-- The settings of a build. -/
structure Settings where
  /-- The namespace that every location belongs to. -/
  nspace : String
  /-- Whether comments describe the stack traffic. -/
  debug : Bool
  /-- How deep calls are unfolded at compile time. -/
  unfoldLimit : Nat
deriving DecidableEq, Inhabited

/-- The settings of a build that gives none. -/
def Settings.standard : Settings := ⟨"minecraft", false, Eval.defaultUnfoldLimit⟩

/-- The part of the settings that code emission looks at. -/
def Settings.emitOptions (s : Settings) : Emit.Options := ⟨s.nspace, s.debug⟩

end Stagecraft.Pipeline
