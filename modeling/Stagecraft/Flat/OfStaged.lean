import Stagecraft.Staged.FreeNames
import Stagecraft.Flat.ClosureTable
import Stagecraft.Flat.TyOfStaged
import Stagecraft.Flat.Term
import Stagecraft.Scope

/-!
# Closure conversion

Every local function becomes a definition that takes its argument together with a record of the
variables it captures, and is replaced by a closure that carries the tag of that definition and
those variables. An application calls the dispatcher on the argument and the closure. Both clauses
of a conditional become definitions that take every variable in scope.

Variables are looked up by name, innermost first, and renumbered by their place in the scope. The
definitions that one conversion splits off are its helpers; they are named after the converted
definition and counted. The table of closure bodies grows only when the whole conversion succeeds.
-/

namespace Stagecraft.Flat

open Staged (Table)

/-- A variable in scope. -/
structure Binding where
  name : String
  ty : Ty
deriving Inhabited

/-- The variables in scope, by level. -/
abbrev Bindings := Scope Binding

/-- The variables in scope with their levels, outermost first. -/
def Bindings.vars (scope : Bindings) : List (Var × Ty) :=
  scope.items.zipIdx.map fun e => (⟨e.1.name, e.2⟩, e.1.ty)

/-- A tuple of every variable in scope. -/
def Bindings.argument (scope : Bindings) : Term :=
  .ofTuple (scope.vars.map fun e => .var e.2 e.1)

/-- The binder that takes apart a tuple of every variable in scope. -/
def Bindings.binder (scope : Bindings) : Pattern :=
  .ofTuple (scope.vars.map fun e => .ofVar e.1 e.2)

/-- The innermost variable of a name, with its type. -/
def Bindings.resolve (scope : Bindings) (name : String) : Except Error (Var × Ty) :=
  match scope.innermost? (·.name == name) with
  | none => .error (.unresolvedVariable name)
  | some level =>
    match scope.get? level with
    | none => .error (.unresolvedVariable name)
    | some b => .ok (⟨name, level⟩, b.ty)

/-- The marks that still matter. An export mark is dropped; marks of compile-time functions
are out of place. -/
def Mark.ofStagedAll : List Staged.Mark → Except Error (List Mark)
  | [] => .ok []
  | .tick :: rest => do return .tick :: (← Mark.ofStagedAll rest)
  | .load :: rest => do return .load :: (← Mark.ofStagedAll rest)
  | .noDrop :: rest => do return .noDrop :: (← Mark.ofStagedAll rest)
  | .builtin :: rest => do return .builtin :: (← Mark.ofStagedAll rest)
  | .exported :: rest => Mark.ofStagedAll rest
  | .inlined :: _ => .error (.unexpectedMark .inlined)
  | .static :: _ => .error (.unexpectedMark .static)

section

variable (table : Table)

mutual

/-- The flat form of a pattern and the scope with its variables bound, from left to right. -/
def Pattern.ofStaged (scope : Bindings) : Staged.Pattern → Except Error (Pattern × Bindings)
  | .int info n => do
    let ty ← Ty.ofStaged table info.ty
    return (.int ⟨← Mark.ofStagedAll info.marks, ty⟩ n, scope)
  | .range info min max => do
    let ty ← Ty.ofStaged table info.ty
    return (.range ⟨← Mark.ofStagedAll info.marks, ty⟩ min max, scope)
  | .list info ps => do
    let ty ← Ty.ofStaged table info.ty
    let (ps, scope) ← Pattern.ofStagedAll scope ps
    return (.list ⟨← Mark.ofStagedAll info.marks, ty⟩ ps, scope)
  | .compound info fields => do
    let ty ← Ty.ofStaged table info.ty
    let (fields, scope) ← Pattern.ofStagedFields scope fields
    return (.compound ⟨← Mark.ofStagedAll info.marks, ty⟩ fields, scope)
  | .tuple info ps => do
    let ty ← Ty.ofStaged table info.ty
    let (ps, scope) ← Pattern.ofStagedAll scope ps
    return (.tuple ⟨← Mark.ofStagedAll info.marks, ty⟩ ps, scope)
  | .var info v => do
    let ty ← Ty.ofStaged table info.ty
    let v : Var := ⟨v.name, scope.length⟩
    return (.var ⟨← Mark.ofStagedAll info.marks, ty⟩ v, scope.bind ⟨v.name, ty⟩)
  | .wildcard info => do
    let ty ← Ty.ofStaged table info.ty
    return (.wildcard ⟨← Mark.ofStagedAll info.marks, ty⟩, scope)
  | .hole info => do
    let _ ← Ty.ofStaged table info.ty
    .error .unexpectedHole

/-- The flat forms of several patterns, each in the scope that the one before leaves. -/
def Pattern.ofStagedAll (scope : Bindings) : List Staged.Pattern → Except Error (List Pattern × Bindings)
  | [] => .ok ([], scope)
  | p :: ps => do
    let (p, scope) ← Pattern.ofStaged scope p
    let (ps, scope) ← Pattern.ofStagedAll scope ps
    return (p :: ps, scope)

/-- The flat forms of the fields of a record pattern, as `Pattern.ofStagedAll`. -/
def Pattern.ofStagedFields (scope : Bindings) :
    List (String × Staged.Pattern) → Except Error (List (String × Pattern) × Bindings)
  | [] => .ok ([], scope)
  | (key, p) :: rest => do
    let (p, scope) ← Pattern.ofStaged scope p
    let (rest, scope) ← Pattern.ofStagedFields scope rest
    return ((key, p) :: rest, scope)

end

/-- What one conversion has split off so far: how many helpers were named, the closure bodies among
them and the helpers themselves, in order. -/
structure Progress where
  named : Nat
  closures : List DefName
  helpers : List Function
deriving Inhabited

/-- Computations that split off helpers; nothing of a failed one remains. -/
abbrev ConvertM := StateT Progress (Except Error)

/-- The definition being converted and the number of closure bodies before it. -/
structure Site where
  name : DefName
  firstTag : Nat
deriving Inhabited

/-- The next helper name: the name of the converted definition and a count. -/
def freshName (site : Site) : ConvertM DefName := do
  let p ← get
  set { p with named := p.named + 1 }
  return site.name.sibling (site.name.name ++ ":" ++ toString p.named)

/-- Split off a function. -/
def addHelper (f : Function) : ConvertM Unit :=
  modify fun p => { p with helpers := p.helpers ++ [f] }

/-- Split off a closure body, whose tag is the result. It restores its own tag on exit, so that
the dispatcher still finds it. -/
def addClosure (site : Site) (binder : Pattern) (result : Ty) (body : Term) : ConvertM Nat := do
  let name ← freshName site
  let tag := site.firstTag + (← get).closures.length
  modify fun p => { p with closures := p.closures ++ [name] }
  addHelper ⟨[], name, binder, result, body, some (Int32.ofNat tag)⟩
  return tag

/-- Split off a clause of a conditional in a scope. -/
def addClause (site : Site) (scope : Bindings) (result : Ty) (body : Term)
    (restore : Option Int32) : ConvertM DefName := do
  let name ← freshName site
  addHelper ⟨[], name, scope.binder, result, body, restore⟩
  return name

/-- The variables that a local function captures, in the order of first use. -/
def capturesOf (scope : Bindings) : List String → Except Error (List Capture)
  | [] => .ok []
  | name :: rest => do
    let (v, ty) ← scope.resolve name
    return ⟨v, ty⟩ :: (← capturesOf scope rest)

/-- A scope with captured variables bound, and the record pattern that binds them. -/
def bindCaptures (scope : Bindings) (captures : List Capture) : Pattern × Bindings :=
  let (fields, scope) := captures.foldl
    (fun (acc : List (String × Pattern) × Bindings) c =>
      (acc.1 ++ [(c.v.name, Pattern.ofVar ⟨c.v.name, acc.2.length⟩ c.ty)],
        acc.2.bind ⟨c.v.name, c.ty⟩))
    ([], scope)
  (.compound ⟨[], .compound (captures.map fun c => (c.v.name, c.ty))⟩ fields, scope)

/-- A clause must occupy the slots that the conditional occupies. -/
def checkClause (expected : List Target.StackKind) (clause : Staged.Term) : Except Error Unit := do
  let found := (← Ty.ofStaged table clause.ty).erase
  if found = expected then return else throw (.branchShapeMismatch expected found)

mutual

/-- The flat form of a term in a scope. -/
def Term.ofStaged (site : Site) (scope : Bindings) : Staged.Term → ConvertM Term
  | .literal t l => return .literal (← Ty.ofStaged table t) l
  | .array t kind es => do
    let ty ← Ty.ofStaged table t
    return .array ty kind (← Term.ofStagedAll site scope es)
  | .list t es => do
    let ty ← Ty.ofStaged table t
    return .list ty (← Term.ofStagedAll site scope es)
  | .compound t fields => do
    let ty ← Ty.ofStaged table t
    return .compound ty (← Term.ofStagedFields site scope fields)
  | .ref t e => do
    let ty ← Ty.ofStaged table t
    return .ref ty (← Term.ofStaged site scope e)
  | .tuple t es => do
    let ty ← Ty.ofStaged table t
    return .tuple ty (← Term.ofStagedAll site scope es)
  | .lambda t binder body => do
    let ty ← Ty.ofStaged table t
    let captures ← capturesOf scope (Staged.Term.lambda t binder body).freeNames.names
    match ty with
    | .function _ result =>
      let (param, inner) ← Pattern.ofStaged table .empty binder
      let (record, inner) := bindCaptures inner captures
      let body ← Term.ofStaged site inner body
      let tag ← addClosure site (.ofTuple [param, record]) result body
      return .closure ty tag captures
    | _ => throw (.unexpectedType t.text)
  | .apply t f a => do
    let ty ← Ty.ofStaged table t
    let operator ← Term.ofStaged site scope f
    let argument ← Term.ofStaged site scope a
    return .call ty dispatcher (.ofTuple [argument, operator])
  | .cond t condition thenClause elseClause => do
    let ty ← Ty.ofStaged table t
    checkClause table ty.erase thenClause
    checkClause table ty.erase elseClause
    let condition ← Term.ofStaged site scope condition
    let onTrue ← Term.ofStaged site scope thenClause
    let thenName ← addClause site scope ty onTrue (some 1)
    let onFalse ← Term.ofStaged site scope elseClause
    let elseName ← addClause site scope ty onFalse none
    return .branch ty condition scope.argument thenName elseName
  | .letIn t binder init body => do
    let ty ← Ty.ofStaged table t
    let init ← Term.ofStaged site scope init
    let (binder, inner) ← Pattern.ofStaged table scope binder
    return .letIn ty binder init (← Term.ofStaged site inner body)
  | .var t v => do
    let ty ← Ty.ofStaged table t
    return .var ty (← scope.resolve v.name).1
  | .call t name a => do
    let ty ← Ty.ofStaged table t
    if (table.function? name).isNone && name != dispatcher then throw (.unresolvedDefinition name)
    return .call ty name (← Term.ofStaged site scope a)
  | .test t e p => do
    let ty ← Ty.ofStaged table t
    let scrutinee ← Term.ofStaged site scope e
    return .test ty scrutinee (← Pattern.ofStaged table scope p).1
  | .command t line => return .command (← Ty.ofStaged table t) line
  | .quote t _ | .splice t _ => do
    let _ ← Ty.ofStaged table t
    throw .unexpectedStaging
  | .hole t => do
    let _ ← Ty.ofStaged table t
    throw .unexpectedHole

/-- The flat forms of several terms, in order. -/
def Term.ofStagedAll (site : Site) (scope : Bindings) : List Staged.Term → ConvertM (List Term)
  | [] => pure []
  | t :: ts => do
    let t ← Term.ofStaged site scope t
    return t :: (← Term.ofStagedAll site scope ts)

/-- The flat forms of the fields of a record, in order. -/
def Term.ofStagedFields (site : Site) (scope : Bindings) :
    List (String × Staged.Term) → ConvertM (List (String × Term))
  | [] => pure []
  | (key, t) :: rest => do
    let t ← Term.ofStaged site scope t
    return (key, t) :: (← Term.ofStagedFields site scope rest)

end

/-- The flat form of a function: the interface alone, if it is a builtin. -/
def Definition.ofStagedFunction (site : Site) (f : Staged.Function) : ConvertM Definition := do
  let marks ← Mark.ofStagedAll f.marks
  if f.has .builtin then
    let param ← Ty.ofStaged table f.binder.ty
    return .builtin ⟨marks, f.name, param, ← Ty.ofStaged table f.result⟩
  else
    let (binder, scope) ← Pattern.ofStaged table .empty f.binder
    let body ← Term.ofStaged table site scope f.body
    return .function ⟨marks, f.name, binder, ← Ty.ofStaged table f.result, body, none⟩

/-- The flat form of a definition; a type alias has none. -/
def Definition.ofStaged (site : Site) : Staged.Definition → ConvertM (List Definition)
  | .function f => return [← Definition.ofStagedFunction table site f]
  | .resource r => do
    let body ← Term.ofStaged table site .empty r.body
    return [.resource ⟨← Mark.ofStagedAll r.marks, r.registry, r.name, body⟩]
  | .alias _ => return []

/-- Convert a definition: its flat form and then its helpers, and the table of closure bodies with
those among the helpers at its end. -/
def convert (closures : ClosureTable) (d : Staged.Definition) :
    Except Error (List Definition × ClosureTable) := do
  let (own, progress) ← (Definition.ofStaged table ⟨d.name, closures.size⟩ d).run ⟨0, [], []⟩
  return (own ++ progress.helpers.map .function, closures.append progress.closures)

end

end Stagecraft.Flat
