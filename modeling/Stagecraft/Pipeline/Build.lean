import Stagecraft.Emit.Artifact
import Stagecraft.Flat.OfStaged
import Stagecraft.Pipeline.Settings
import Stagecraft.Residual.Definition

/-!
# Builds

Every definition of a compilation unit is staged, converted and emitted on its own. One that fails
on the way is reported and left out, without any effect on the rest. A build has no answer when the
fuel of its evaluations runs out.
-/

namespace Stagecraft.Pipeline

open Staged (Table)
open Eval (Natives)
open Flat (ClosureTable)
open Target (Artifact)

/-- Why a definition was left out. -/
inductive BuildError where
  | staging (error : Residual.Error)
  | conversion (error : Flat.Error)
  | emission (error : Emit.Error)
deriving DecidableEq, Inhabited

namespace BuildError

/-- The text of a failure. -/
def message : BuildError → String
  | .staging e => "staging: " ++ e.message
  | .conversion e => "lifting: " ++ e.message
  | .emission e => "packing: " ++ e.message

/-- Whether the failure is a defect of an earlier phase. -/
def isDefect : BuildError → Bool
  | .staging e => e.isDefect
  | .conversion e => e.isDefect
  | .emission e => e.isDefect

end BuildError

/-- Definitions that were left out, with the reason. -/
abbrev Failures := List (DefName × BuildError)

/-- What a build gives. -/
structure Build where
  /-- In the order of the definitions, the dispatcher last. -/
  artifacts : List Artifact
  closures : ClosureTable
  failures : Failures
deriving Inhabited

/-- The residuals of several definitions, in order, and those that have none because of a failure. -/
def residuals? (cx : Eval.Context) (fuel : Nat) :
    List Staged.Definition → Option (List Staged.Definition × Failures)
  | [] => some ([], [])
  | d :: ds => do
    let here ←
      match Residual.residual? cx fuel d with
      | .ok none => some ([], [])
      | .ok (some r) => some ([r], [])
      | .error (.failed e) => some ([], [(d.name, .staging e)])
      | .error .outOfFuel => none
    let (rest, failures) ← residuals? cx fuel ds
    return (here.1 ++ rest, here.2 ++ failures)

/-- The flat forms of several definitions, in order, which share one table of closure bodies. -/
def flatten (table : Table) (closures : ClosureTable) :
    List Staged.Definition → List Flat.Definition × ClosureTable × Failures
  | [] => ([], closures, [])
  | d :: ds =>
    match Flat.convert table closures d with
    | .ok (flat, closures) =>
      let (rest, closures, failures) := flatten table closures ds
      (flat ++ rest, closures, failures)
    | .error e =>
      let (rest, closures, failures) := flatten table closures ds
      (rest, closures, (d.name, .conversion e) :: failures)

/-- The artifacts of several flat definitions, in order. -/
def artifacts (options : Emit.Options) : List Flat.Definition → List Artifact × Failures
  | [] => ([], [])
  | d :: ds =>
    let (rest, failures) := artifacts options ds
    match Emit.artifact? options d with
    | .ok none => (rest, failures)
    | .ok (some a) => (a :: rest, failures)
    | .error e => (rest, (d.name, .emission e) :: failures)

/-- Build the definitions of a table. -/
def build? (fuel : Nat) (settings : Settings) (natives : Natives) (table : Table) : Option Build := do
  let (staged, stagingFailures) ←
    residuals? ⟨table, natives, settings.unfoldLimit⟩ fuel table.definitions
  let residual := Table.ofList staged
  let (flat, closures, conversionFailures) := flatten residual .empty residual.definitions
  let (emitted, emissionFailures) := artifacts settings.emitOptions flat
  return {
    artifacts := emitted ++ [Emit.dispatcher settings.emitOptions closures]
    closures := closures
    failures := stagingFailures ++ conversionFailures ++ emissionFailures }

namespace Build

/-- Whether every definition came through. -/
def isClean (b : Build) : Bool := b.failures.isEmpty

/-- Every artifact as text, one block each. -/
def text (b : Build) : String := String.join (b.artifacts.map fun a => a.text ++ "\n")

end Build

end Stagecraft.Pipeline
