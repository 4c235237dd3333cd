import Stagecraft.Staged.Prelude
import Stagecraft.Eval.Value

/-!
# Native functions

Functions that the evaluator implements itself. A native function receives its argument evaluated,
and gives no answer as long as the argument is not known well enough.
-/

namespace Stagecraft.Eval

/-- The native functions. -/
inductive Native where
  | intAdd | intSub | intMul | intDiv | intMod | intEq | intLt | boolNot | boolAnd | boolOr
deriving DecidableEq, Inhabited, Repr

namespace Native

/-- The names of the native functions in the prelude. -/
def all : List (String × Native) :=
  [("int_add", .intAdd), ("int_sub", .intSub), ("int_mul", .intMul), ("int_div", .intDiv),
    ("int_mod", .intMod), ("int_eq", .intEq), ("int_lt", .intLt), ("bool_not", .boolNot),
    ("bool_and", .boolAnd), ("bool_or", .boolOr)]

/-- Truncated division has no answer for a zero divisor, nor where the quotient does not fit. -/
def divides (a b : Int32) : Bool := b != 0 && !(a == Int32.minValue && b == -1)

/-- The result on a pair of values, where both are known. -/
def onPair (n : Native) (a b : Value) : Option Literal :=
  match n with
  | .intAdd => do return .int ((← a.int?) + (← b.int?))
  | .intSub => do return .int ((← a.int?) - (← b.int?))
  | .intMul => do return .int ((← a.int?) * (← b.int?))
  | .intDiv => do
    let x ← a.int?
    let y ← b.int?
    if divides x y then some (.int (x / y)) else none
  | .intMod => do
    let x ← a.int?
    let y ← b.int?
    if divides x y then some (.int (x % y)) else none
  | .intEq => do return .bool ((← a.int?) == (← b.int?))
  | .intLt => do return .bool (decide ((← a.int?) < (← b.int?)))
  | .boolAnd => do return .bool ((← a.bool?) && (← b.bool?))
  | .boolOr => do return .bool ((← a.bool?) || (← b.bool?))
  | .boolNot => none

/-- Apply a native function. The binary ones take a pair and force both components. -/
def run (forceCell : CellId → EvalM Value) (n : Native) (argument : Value) :
    EvalM (Option Value) := do
  match n, argument with
  | .boolNot, v => return v.bool?.map fun b => .literal (.bool (!b))
  | n, .tuple [x, y] =>
    let a ← forceCell x
    let b ← forceCell y
    return (n.onPair a b).map .literal
  | _, _ => return none

end Native

/-- The native function registered under each name. -/
abbrev Natives := List (DefName × Native)

/-- The registry of the prelude. -/
def Natives.prelude : Natives := Native.all.map fun e => (Staged.preludeName e.1, e.2)

end Stagecraft.Eval
