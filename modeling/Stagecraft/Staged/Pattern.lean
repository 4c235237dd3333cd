import Stagecraft.Staged.Ty

/-!
# Patterns of the staged language

Patterns bind variables and decide tests. The binders of a pattern are listed from left to right;
every part of the library that binds a pattern binds them in this order.
-/

namespace Stagecraft.Staged

/-- Marks on definitions and binders. -/
inductive Mark where
  /-- Called on every game tick. -/
  | tick
  /-- Called when the pack is loaded. -/
  | load
  /-- The slots of the binder stay on the stacks. -/
  | noDrop
  /-- Implemented outside the program. -/
  | builtin
  | exported
  /-- Gone after staging. -/
  | inlined
  /-- Gone after staging. -/
  | static
deriving DecidableEq, Inhabited, Repr

/-- What every pattern node carries beside its shape. -/
structure PatternInfo where
  marks : List Mark
  ty : Ty
deriving Inhabited

/-- Staged patterns. Ranges are inclusive at both ends. -/
inductive Pattern where
  | int (info : PatternInfo) (value : Int32)
  | range (info : PatternInfo) (min max : Int32)
  | list (info : PatternInfo) (elements : List Pattern)
  | compound (info : PatternInfo) (fields : List (String × Pattern))
  | tuple (info : PatternInfo) (elements : List Pattern)
  | var (info : PatternInfo) (v : Var)
  /-- Matches everything and binds nothing. -/
  | wildcard (info : PatternInfo)
  | hole (info : PatternInfo)
deriving Inhabited

namespace Pattern

/-- What the node carries beside its shape. -/
def info : Pattern → PatternInfo
  | .int i _ | .range i _ _ | .list i _ | .compound i _ | .tuple i _ | .var i _ | .wildcard i
  | .hole i => i

/-- The type of what the pattern is matched against. -/
def ty (p : Pattern) : Ty := p.info.ty

mutual

/-- The variables that the pattern binds, from left to right. -/
def binders : Pattern → List Var
  | .int .. | .range .. | .wildcard _ | .hole _ => []
  | .list _ es | .tuple _ es => bindersOfAll es
  | .compound _ fields => bindersOfFields fields
  | .var _ v => [v]

/-- The variables that several patterns bind. -/
def bindersOfAll : List Pattern → List Var
  | [] => []
  | p :: ps => p.binders ++ bindersOfAll ps

/-- The variables that the fields of a record pattern bind. -/
def bindersOfFields : List (String × Pattern) → List Var
  | [] => []
  | (_, p) :: rest => p.binders ++ bindersOfFields rest

end

mutual

/-- Whether a hole occurs in the pattern. -/
def hasHole : Pattern → Bool
  | .hole _ => true
  | .int .. | .range .. | .var .. | .wildcard _ => false
  | .list _ es | .tuple _ es => anyHole es
  | .compound _ fields => anyFieldHole fields

/-- Whether a hole occurs in one of several patterns. -/
def anyHole : List Pattern → Bool
  | [] => false
  | p :: ps => p.hasHole || anyHole ps

/-- Whether a hole occurs in a field of a record pattern. -/
def anyFieldHole : List (String × Pattern) → Bool
  | [] => false
  | (_, p) :: rest => p.hasHole || anyFieldHole rest

end

mutual

/-- A pattern on one line. -/
def text : Pattern → String
  | .int _ n => toString n.toInt
  | .range _ min max => toString min.toInt ++ ".." ++ toString max.toInt
  | .list _ es => "[" ++ commaSeparated (texts es) ++ "]"
  | .compound _ fields => "\x7b" ++ commaSeparated (fieldTexts fields) ++ "\x7d"
  | .tuple _ es => "(" ++ commaSeparated (texts es) ++ ")"
  | .var _ v => v.text
  | .wildcard _ => "_"
  | .hole _ => "?"

/-- The texts of several patterns. -/
def texts : List Pattern → List String
  | [] => []
  | p :: ps => p.text :: texts ps

/-- The fields of a record pattern, each with its key. -/
def fieldTexts : List (String × Pattern) → List String
  | [] => []
  | (key, p) :: rest => (key ++ ": " ++ p.text) :: fieldTexts rest

end

/-- Induction on patterns, with a hypothesis for each part of a pattern. -/
theorem induction {motive : Pattern → Prop} (int : ∀ info n, motive (.int info n))
    (range : ∀ info min max, motive (.range info min max))
    (list : ∀ info ps, (∀ p ∈ ps, motive p) → motive (.list info ps))
    (compound : ∀ info fields, (∀ f ∈ fields, motive f.2) → motive (.compound info fields))
    (tuple : ∀ info ps, (∀ p ∈ ps, motive p) → motive (.tuple info ps))
    (var : ∀ info v, motive (.var info v)) (wildcard : ∀ info, motive (.wildcard info))
    (hole : ∀ info, motive (.hole info)) (p : Pattern) : motive p :=
  @Pattern.rec motive (fun ps => ∀ p ∈ ps, motive p) (fun fields => ∀ f ∈ fields, motive f.2)
    (fun f => motive f.2) int range list compound tuple var wildcard hole
    (List.forall_mem_nil _) (fun _ _ hp hps => List.forall_mem_cons.2 ⟨hp, hps⟩)
    (List.forall_mem_nil _) (fun _ _ hf hfields => List.forall_mem_cons.2 ⟨hf, hfields⟩)
    (fun _ _ hp => hp) p

end Pattern

end Stagecraft.Staged
