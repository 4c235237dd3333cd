import Stagecraft.Staged.Term

/-!
# Terms and patterns with their inferred types

Builders that give a node the type that follows from its parts. A node whose parts do not determine
a type gets a hole.
-/

namespace Stagecraft.Staged

namespace Pattern

/-- A pattern node without marks. -/
def plain (ty : Ty) : PatternInfo := ⟨[], ty⟩

/-- A tuple pattern takes a tuple of what its elements take. -/
def tupleTy (elements : List Pattern) : Ty := .tuple (elements.map ty)

end Pattern

namespace Term

/-- A literal at its unrefined type. -/
def ofLiteral (l : Literal) : Term := .literal (Ty.ofLiteral l) l

/-- A record of its fields. -/
def ofFields (fields : List (String × Term)) : Term :=
  .compound (.compound (fields.map fun f => (f.1, f.2.ty))) fields

/-- A tuple of its elements. -/
def ofTuple (elements : List Term) : Term := .tuple (.tuple (elements.map ty)) elements

/-- A function from what its binder takes to what its body gives. -/
def ofLambda (binder : Pattern) (body : Term) : Term :=
  .lambda (.function binder.ty body.ty) binder body

/-- An application gives the result of the operator's type. -/
def ofApply (operator argument : Term) : Term :=
  let ty :=
    match operator.ty with
    | .function _ result => result
    | _ => .hole
  .apply ty operator argument

/-- A conditional has the type of its first clause. -/
def ofCond (condition thenClause elseClause : Term) : Term :=
  .cond thenClause.ty condition thenClause elseClause

/-- A binding has the type of its body. -/
def ofLet (binder : Pattern) (init body : Term) : Term := .letIn body.ty binder init body

/-- A test is a truth value. -/
def ofTest (scrutinee : Term) (pattern : Pattern) : Term := .test .bool scrutinee pattern

/-- A quoted term is code of its type. -/
def ofQuote (element : Term) : Term := .quote (.code element.ty) element

/-- A splice has the type of the code it runs. -/
def ofSplice (element : Term) : Term :=
  let ty :=
    match element.ty with
    | .code t => t
    | _ => .hole
  .splice ty element

end Term

end Stagecraft.Staged
