import Stagecraft.Target.Instruction
import Stagecraft.Target.Tree

/-!
# Artifacts

What a build emits: functions, as lists of instructions, and resources, as data trees.
-/

namespace Stagecraft.Target

/-- An emitted definition. -/
inductive Artifact where
  | function (location : Location) (instructions : List Instruction)
  | resource (registry : Registry) (location : Location) (body : Tree)
deriving Inhabited

namespace Artifact

/-- Where the artifact belongs. -/
def location : Artifact → Location
  | .function l _ => l
  | .resource _ l _ => l

/-- Command lines as the body of a function. Every line is indented, but a last line that is empty
stays empty; a body without commands is one empty line. -/
def bodyLines : List String → List String
  | [] | [""] => [""]
  | line :: [] => ["  " ++ line]
  | line :: rest => ("  " ++ line) :: bodyLines rest

/-- The artifact as text. The instructions of a function stand between braces, each on a line of its
own. -/
def text : Artifact → String
  | .function l instructions =>
    String.intercalate "\n" (["function " ++ l.text ++ " \x7b"] ++
      bodyLines (instructions.map Instruction.text) ++ ["\x7d"])
  | .resource registry l body => registry.directory ++ " " ++ l.text ++ " = " ++ body.text

end Artifact

end Stagecraft.Target
