import Stagecraft.Machine.State
import Stagecraft.Target.Artifact

/-!
# Runs of the reference machine

A run works through a list of pending instructions: a call puts the instructions of the called
function in front of it, and a condition that holds its guarded instruction. Every instruction costs
one unit of fuel. Native functions are operations on the whole state and are looked up before the
functions of the program; the integer functions of the prelude can be installed as such.
-/

namespace Stagecraft.Machine

open Target (StackKind Nbt DataPath Location Instruction Artifact)

/-- The native functions of the machine. -/
inductive Native where
  | add | sub | mul | eq | lt
deriving DecidableEq, Inhabited, Repr

namespace Native

/-- The native functions with their names in the prelude. -/
def all : List (String × Native) :=
  [("int_add", .add), ("int_sub", .sub), ("int_mul", .mul), ("int_eq", .eq), ("int_lt", .lt)]

/-- The result on two integers and the stack it goes to. -/
def result (n : Native) (a b : Int32) : StackKind × Nbt :=
  match n with
  | .add => (.int, .int (a + b))
  | .sub => (.int, .int (a - b))
  | .mul => (.int, .int (a * b))
  | .eq => (.byte, .byte (if a = b then 1 else 0))
  | .lt => (.byte, .byte (if a < b then 1 else 0))

end Native

/-- Take the value off the top of the integer stack. It is gone even if it is not an integer. -/
def popInt (s : State) : Except Error Int32 × State :=
  match s.stack .int with
  | [] => (.error (.noData (.slot .int (-1))), s)
  | v :: rest =>
    let s := { s with byKind := s.byKind.set .int rest }
    match v with
    | .int n => (.ok n, s)
    | _ => (.error (.notANumber (.slot .int (-1))), s)

/-- Replace the two integers on top of their stack by a result. What was taken before a failure
stays away. -/
def Native.run (n : Native) (s : State) : Except Error Unit × State :=
  match popInt s with
  | (.error e, s) => (.error e, s)
  | (.ok b, s) =>
    match popInt s with
    | (.error e, s) => (.error e, s)
    | (.ok a, s) =>
      let (k, v) := n.result a b
      (.ok (), s.push k v)

/-- What calls can reach: instructions, and operations on the whole state. -/
structure Program where
  functions : List (Location × List Instruction)
  natives : List (Location × (State → Except Error Unit × State))
deriving Inhabited

namespace Program

/-- Nothing to call. -/
def empty : Program := ⟨[], []⟩

/-- The program with a function; an earlier one at the same location is replaced. -/
def add (p : Program) (location : Location) (body : List Instruction) : Program :=
  { p with functions := Keyed.insert location body p.functions }

/-- The program with the functions among artifacts. -/
def addArtifacts (p : Program) (artifacts : List Artifact) : Program :=
  artifacts.foldl (fun p a =>
    match a with
    | .function location body => p.add location body
    | .resource .. => p) p

/-- The program with the native functions of the prelude under a namespace. -/
def withPrelude (p : Program) (nspace : String) : Program :=
  let natives := Native.all.foldl
    (fun natives e => Keyed.insert ⟨nspace, "prelude/" ++ e.1⟩ e.2.run natives) p.natives
  { p with natives := natives }

end Program

/-- How a run ends: the state it leaves, the fuel that is left, and the failure if there was one. -/
structure Outcome where
  state : State
  fuel : Nat
  error : Option Error
deriving Inhabited

/-- Work through pending instructions. -/
def run (p : Program) : Nat → List Instruction → State → Outcome
  | fuel, [], s => ⟨s, fuel, none⟩
  | 0, _ :: _, s => ⟨s, 0, some .outOfFuel⟩
  | fuel + 1, .ifScore negated r range body :: rest, s =>
    run p fuel (if range.contains (s.score r) != negated then body :: rest else rest) s
  | fuel + 1, .call location :: rest, s =>
    match Keyed.find? location p.natives with
    | some native =>
      match native s with
      | (.ok _, s) => run p fuel rest s
      | (.error e, s) => ⟨s, fuel, some e⟩
    | none =>
      match Keyed.find? location p.functions with
      | some body => run p fuel (body ++ rest) s
      | none => ⟨s, fuel, some (.unknownFunction location)⟩
  | fuel + 1, i :: rest, s =>
    match s.apply i with
    | .ok s => run p fuel rest s
    | .error e => ⟨s, fuel, some e⟩

/-- A run of instructions before others ends like a run of them alone; if that has no failure, the
others go on from what it leaves. -/
theorem run_append (p : Program) (fuel : Nat) (is js : List Instruction) (s : State) :
    run p fuel (is ++ js) s =
      match (run p fuel is s).error with
      | none => run p (run p fuel is s).fuel js (run p fuel is s).state
      | some _ => run p fuel is s := by
  fun_induction run p fuel is s with
  | case3 _ negated r range body rest s ih =>
    rw [List.cons_append, run, ← ih]
    split <;> rfl
  | _ => simp_all [run]

/-- Call a location from outside, which costs no fuel itself. -/
def call (p : Program) (fuel : Nat) (location : Location) (s : State) : Outcome :=
  match Keyed.find? location p.natives with
  | some native =>
    match native s with
    | (.ok _, s) => ⟨s, fuel, none⟩
    | (.error e, s) => ⟨s, fuel, some e⟩
  | none =>
    match Keyed.find? location p.functions with
    | some body => run p fuel body s
    | none => ⟨s, fuel, some (.unknownFunction location)⟩

/-- The fuel of a session. -/
def sessionFuel : Nat := 100000

end Stagecraft.Machine
