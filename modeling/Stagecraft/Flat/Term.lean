import Stagecraft.Flat.Ty
import Stagecraft.Name

/-!
# The flat language

Programs without local functions. A function value is a record of a tag and of captured variables,
and the clauses of a conditional are definitions of their own, called with a copy of the variables
in scope.
-/

namespace Stagecraft.Flat

/-- Marks that still matter after conversion. -/
inductive Mark where
  | tick | load | noDrop | builtin
deriving DecidableEq, Inhabited, Repr

/-- What every pattern node carries beside its shape. -/
structure PatternInfo where
  marks : List Mark
  ty : Ty
deriving Inhabited

/-- Flat patterns. Ranges are inclusive at both ends. -/
inductive Pattern where
  | int (info : PatternInfo) (value : Int32)
  | range (info : PatternInfo) (min max : Int32)
  | list (info : PatternInfo) (elements : List Pattern)
  | compound (info : PatternInfo) (fields : List (String × Pattern))
  | tuple (info : PatternInfo) (elements : List Pattern)
  | var (info : PatternInfo) (v : Var)
  | wildcard (info : PatternInfo)
deriving Inhabited

namespace Pattern

/-- What the node carries beside its shape. -/
def info : Pattern → PatternInfo
  | .int i _ | .range i _ _ | .list i _ | .compound i _ | .tuple i _ | .var i _ | .wildcard i => i

/-- The type of what the pattern is matched against. -/
def ty (p : Pattern) : Ty := p.info.ty

/-- Whether a binder carries a mark. -/
def has (p : Pattern) (a : Mark) : Bool := p.info.marks.contains a

/-- The binder of a variable. -/
def ofVar (v : Var) (ty : Ty) : Pattern := .var ⟨[], ty⟩ v

/-- The binder of a tuple of what its elements take. -/
def ofTuple (elements : List Pattern) : Pattern := .tuple ⟨[], .tuple (elements.map ty)⟩ elements

mutual

/-- The variables that the pattern binds, from left to right. -/
def binders : Pattern → List Var
  | .int .. | .range .. | .wildcard _ => []
  | .list _ es | .tuple _ es => bindersOfAll es
  | .compound _ fields => bindersOfFields fields
  | .var _ v => [v]

/-- The variables that several patterns bind. -/
def bindersOfAll : List Pattern → List Var
  | [] => []
  | p :: ps => p.binders ++ bindersOfAll ps

/-- The variables that the fields of a record pattern bind. -/
def bindersOfFields : List (String × Pattern) → List Var
  | [] => []
  | (_, p) :: rest => p.binders ++ bindersOfFields rest

end

mutual

/-- A pattern on one line. -/
def text : Pattern → String
  | .int _ n => toString n.toInt
  | .range _ min max => toString min.toInt ++ ".." ++ toString max.toInt
  | .list _ es => "[" ++ commaSeparated (texts es) ++ "]"
  | .compound _ fields => "\x7b" ++ commaSeparated (fieldTexts fields) ++ "\x7d"
  | .tuple _ es => "(" ++ commaSeparated (texts es) ++ ")"
  | .var _ v => v.text
  | .wildcard _ => "_"

/-- The texts of several patterns. -/
def texts : List Pattern → List String
  | [] => []
  | p :: ps => p.text :: texts ps

/-- The fields of a record pattern, each with its key. -/
def fieldTexts : List (String × Pattern) → List String
  | [] => []
  | (key, p) :: rest => (key ++ ": " ++ p.text) :: fieldTexts rest

end

end Pattern

/-- A captured variable, by its place in the enclosing scope. -/
structure Capture where
  v : Var
  ty : Ty
deriving Inhabited

/-- Flat terms. -/
inductive Term where
  | literal (ty : Ty) (value : Literal)
  | array (ty : Ty) (kind : ArrayKind) (elements : List Term)
  | list (ty : Ty) (elements : List Term)
  | compound (ty : Ty) (fields : List (String × Term))
  | ref (ty : Ty) (element : Term)
  | tuple (ty : Ty) (elements : List Term)
  /-- A function value: the tag of its body and the variables captured for it. -/
  | closure (ty : Ty) (tag : Nat) (captures : List Capture)
  /-- A jump to one of two definitions, which consumes the argument. -/
  | branch (ty : Ty) (condition argument : Term) (thenName elseName : DefName)
  | letIn (ty : Ty) (binder : Pattern) (init body : Term)
  | var (ty : Ty) (v : Var)
  | call (ty : Ty) (name : DefName) (argument : Term)
  | test (ty : Ty) (scrutinee : Term) (pattern : Pattern)
  | command (ty : Ty) (line : String)
deriving Inhabited

namespace Term

/-- The type of the node. -/
def ty : Term → Ty
  | .literal t _ | .array t _ _ | .list t _ | .compound t _ | .ref t _ | .tuple t _
  | .closure t _ _ | .branch t _ _ _ _ | .letIn t _ _ _ | .var t _ | .call t _ _ | .test t _ _
  | .command t _ => t

/-- A tuple of its elements. -/
def ofTuple (elements : List Term) : Term := .tuple (.tuple (elements.map ty)) elements

mutual

/-- A term on one line. -/
def text : Term → String
  | .literal _ l => l.text
  | .array _ kind es => "[" ++ kind.letter ++ "; " ++ commaSeparated (texts es) ++ "]"
  | .list _ es => "[" ++ commaSeparated (texts es) ++ "]"
  | .compound _ fields => "\x7b" ++ commaSeparated (fieldTexts fields) ++ "\x7d"
  | .ref _ e => "&" ++ e.text
  | .tuple _ es => "(" ++ commaSeparated (texts es) ++ ")"
  | .closure _ tag captures =>
    "\x7b" ++ commaSeparated (("_: " ++ toString tag) ::
      captures.map fun c => c.v.name ++ ": " ++ c.v.text) ++ "\x7d"
  | .branch _ c a thenName elseName =>
    "if " ++ c.text ++ " then " ++ thenName.text ++ "(" ++ a.text ++ ") else " ++ elseName.text ++
      "(" ++ a.text ++ ")"
  | .letIn _ p i b => "let " ++ p.text ++ " = " ++ i.text ++ "; " ++ b.text
  | .var _ v => v.text
  | .call _ n a => n.text ++ "(" ++ a.text ++ ")"
  | .test _ e p => e.text ++ " is " ++ p.text
  | .command _ s => "/" ++ s

/-- The texts of several terms. -/
def texts : List Term → List String
  | [] => []
  | t :: ts => t.text :: texts ts

/-- The fields of a record, each with its key. -/
def fieldTexts : List (String × Term) → List String
  | [] => []
  | (key, t) :: rest => (key ++ ": " ++ t.text) :: fieldTexts rest

end

end Term

/-- A function; on exit it sets the result register to `restore`, if that is given. -/
structure Function where
  marks : List Mark
  name : DefName
  binder : Pattern
  result : Ty
  body : Term
  restore : Option Int32
deriving Inhabited

/-- Whether a function carries a mark. -/
def Function.has (f : Function) (a : Mark) : Bool := f.marks.contains a

/-- The interface of a function that the target implements. -/
structure Builtin where
  marks : List Mark
  name : DefName
  param : Ty
  result : Ty
deriving Inhabited

/-- A data-driven asset. -/
structure Resource where
  marks : List Mark
  registry : Registry
  name : DefName
  body : Term
deriving Inhabited

/-- A flat top-level definition. -/
inductive Definition where
  | function (f : Function)
  | builtin (b : Builtin)
  | resource (r : Resource)
deriving Inhabited

namespace Definition

/-- The name of a definition. -/
def name : Definition → DefName
  | .function f => f.name
  | .builtin b => b.name
  | .resource r => r.name

/-- A definition on one line. -/
def text : Definition → String
  | .function f =>
    let restore :=
      match f.restore with
      | some n => " restore " ++ toString n.toInt
      | none => ""
    "function " ++ f.name.text ++ "(" ++ f.binder.text ++ ") -> " ++ f.result.text ++ restore ++
      " = " ++ f.body.text
  | .builtin b => "builtin " ++ b.name.text ++ "(" ++ b.param.text ++ ") -> " ++ b.result.text
  | .resource r => r.registry.directory ++ " " ++ r.name.text ++ " = " ++ r.body.text

end Definition

end Stagecraft.Flat
