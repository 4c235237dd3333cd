import Stagecraft.Staged.Pattern

/-!
# Terms of the staged language

Every node carries the type that elaboration gave it. A variable occurrence names its binding by
level; quotes and splices move between program fragments and programs.
-/

namespace Stagecraft.Staged

/-- Staged terms. -/
inductive Term where
  | literal (ty : Ty) (value : Literal)
  | array (ty : Ty) (kind : ArrayKind) (elements : List Term)
  | list (ty : Ty) (elements : List Term)
  | compound (ty : Ty) (fields : List (String × Term))
  /-- A boxed value. -/
  | ref (ty : Ty) (element : Term)
  | tuple (ty : Ty) (elements : List Term)
  | lambda (ty : Ty) (binder : Pattern) (body : Term)
  | apply (ty : Ty) (operator argument : Term)
  | cond (ty : Ty) (condition thenClause elseClause : Term)
  | letIn (ty : Ty) (binder : Pattern) (init body : Term)
  | var (ty : Ty) (v : Var)
  /-- A call to a top-level definition. -/
  | call (ty : Ty) (name : DefName) (argument : Term)
  /-- Whether a value matches a pattern. -/
  | test (ty : Ty) (scrutinee : Term) (pattern : Pattern)
  /-- Target text, emitted as it is. -/
  | command (ty : Ty) (line : String)
  /-- A program fragment as a value. -/
  | quote (ty : Ty) (element : Term)
  /-- The program fragment that a value of a code type holds. -/
  | splice (ty : Ty) (element : Term)
  | hole (ty : Ty)
deriving Inhabited

namespace Term

/-- The type of the node. -/
def ty : Term → Ty
  | .literal t _ | .array t _ _ | .list t _ | .compound t _ | .ref t _ | .tuple t _
  | .lambda t _ _ | .apply t _ _ | .cond t _ _ _ | .letIn t _ _ _ | .var t _ | .call t _ _
  | .test t _ _ | .command t _ | .quote t _ | .splice t _ | .hole t => t

/-- The same node under another type. -/
def withTy (t : Ty) : Term → Term
  | .literal _ v => .literal t v
  | .array _ k es => .array t k es
  | .list _ es => .list t es
  | .compound _ fs => .compound t fs
  | .ref _ e => .ref t e
  | .tuple _ es => .tuple t es
  | .lambda _ p b => .lambda t p b
  | .apply _ f a => .apply t f a
  | .cond _ c a b => .cond t c a b
  | .letIn _ p i b => .letIn t p i b
  | .var _ v => .var t v
  | .call _ n a => .call t n a
  | .test _ e p => .test t e p
  | .command _ s => .command t s
  | .quote _ e => .quote t e
  | .splice _ e => .splice t e
  | .hole _ => .hole t

@[simp] theorem ty_withTy (t : Ty) (e : Term) : (e.withTy t).ty = t := by
  cases e <;> rfl

mutual

/-- A term on one line. -/
def text : Term → String
  | .literal _ l => l.text
  | .array _ kind es => "[" ++ kind.letter ++ "; " ++ commaSeparated (texts es) ++ "]"
  | .list _ es => "[" ++ commaSeparated (texts es) ++ "]"
  | .compound _ fields => "\x7b" ++ commaSeparated (fieldTexts fields) ++ "\x7d"
  | .ref _ e => "&" ++ e.text
  | .tuple _ es => "(" ++ commaSeparated (texts es) ++ ")"
  | .lambda _ p b => "\\" ++ p.text ++ " -> " ++ b.text
  | .apply _ f a => f.text ++ "(" ++ a.text ++ ")"
  | .cond _ c a b => "if " ++ c.text ++ " then " ++ a.text ++ " else " ++ b.text
  | .letIn _ p i b => "let " ++ p.text ++ " = " ++ i.text ++ "; " ++ b.text
  | .var _ v => v.text
  | .call _ n a => n.text ++ "(" ++ a.text ++ ")"
  | .test _ e p => e.text ++ " is " ++ p.text
  | .command _ s => "/" ++ s
  | .quote _ e => "`" ++ e.text
  | .splice _ e => "$" ++ e.text
  | .hole _ => "?"

/-- The texts of several terms. -/
def texts : List Term → List String
  | [] => []
  | t :: ts => t.text :: texts ts

/-- The fields of a record, each with its key. -/
def fieldTexts : List (String × Term) → List String
  | [] => []
  | (key, t) :: rest => (key ++ ": " ++ t.text) :: fieldTexts rest

end

end Term

end Stagecraft.Staged
