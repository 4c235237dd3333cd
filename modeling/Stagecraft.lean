import Stagecraft.Emit.Artifact
import Stagecraft.Emit.Code
import Stagecraft.Emit.Error
import Stagecraft.Emit.Slots
import Stagecraft.Eval.Error
import Stagecraft.Eval.Evaluate
import Stagecraft.Eval.Matching
import Stagecraft.Eval.Native
import Stagecraft.Eval.ReadBack
import Stagecraft.Eval.Value
import Stagecraft.Flat.ClosureTable
import Stagecraft.Flat.Error
import Stagecraft.Flat.OfStaged
import Stagecraft.Flat.Term
import Stagecraft.Flat.Ty
import Stagecraft.Flat.TyOfStaged
import Stagecraft.Keyed
import Stagecraft.Literal
import Stagecraft.Machine.Error
import Stagecraft.Machine.Place
import Stagecraft.Machine.Run
import Stagecraft.Machine.State
import Stagecraft.Memo
import Stagecraft.Name
import Stagecraft.NameSet
import Stagecraft.Number.Binary
import Stagecraft.Number.FloatText
import Stagecraft.Number.Shortest
import Stagecraft.Pipeline.Build
import Stagecraft.Pipeline.Settings
import Stagecraft.Pipeline.SettingsText
import Stagecraft.Proofs.Adequacy
import Stagecraft.Proofs.Aggregates
import Stagecraft.Proofs.AliasExpansion
import Stagecraft.Proofs.BinderEmission
import Stagecraft.Proofs.Builds
import Stagecraft.Proofs.ByName
import Stagecraft.Proofs.ByNameFuel
import Stagecraft.Proofs.CallTargets
import Stagecraft.Proofs.CapturedRecords
import Stagecraft.Proofs.CellEvaluation
import Stagecraft.Proofs.CellLives
import Stagecraft.Proofs.CellSemantics
import Stagecraft.Proofs.ClauseCalls
import Stagecraft.Proofs.ClosedFunctions
import Stagecraft.Proofs.ClosureConversion
import Stagecraft.Proofs.ClosureTags
import Stagecraft.Proofs.CodeRuns
import Stagecraft.Proofs.CommandLines
import Stagecraft.Proofs.CommandTexts
import Stagecraft.Proofs.Conditionals
import Stagecraft.Proofs.Conversion
import Stagecraft.Proofs.Cycles
import Stagecraft.Proofs.DataReadBack
import Stagecraft.Proofs.DataTexts
import Stagecraft.Proofs.DebugComments
import Stagecraft.Proofs.Destructuring
import Stagecraft.Proofs.Dispatch
import Stagecraft.Proofs.DistinctLocations
import Stagecraft.Proofs.EmissionLogic
import Stagecraft.Proofs.EmissionRelations
import Stagecraft.Proofs.EmissionSafety
import Stagecraft.Proofs.EscapedNames
import Stagecraft.Proofs.EvaluationAgreement
import Stagecraft.Proofs.Except
import Stagecraft.Proofs.Failures
import Stagecraft.Proofs.Fates
import Stagecraft.Proofs.FixedPoints
import Stagecraft.Proofs.FlatInterpreter
import Stagecraft.Proofs.FlatSemantics
import Stagecraft.Proofs.FlatTyping
import Stagecraft.Proofs.FloatTexts
import Stagecraft.Proofs.Frames
import Stagecraft.Proofs.FreeVariables
import Stagecraft.Proofs.HelperLogic
import Stagecraft.Proofs.History
import Stagecraft.Proofs.Implementation
import Stagecraft.Proofs.Interfaces
import Stagecraft.Proofs.KeptBindings
import Stagecraft.Proofs.KeptFrames
import Stagecraft.Proofs.LocalChanges
import Stagecraft.Proofs.Locations
import Stagecraft.Proofs.MachineLogic
import Stagecraft.Proofs.MatchVerdicts
import Stagecraft.Proofs.NodeTypes
import Stagecraft.Proofs.NormalForms
import Stagecraft.Proofs.Observation
import Stagecraft.Proofs.PatternAgreement
import Stagecraft.Proofs.PatternTests
import Stagecraft.Proofs.ReadBackAgreement
import Stagecraft.Proofs.ReadBackEnds
import Stagecraft.Proofs.RecordEntry
import Stagecraft.Proofs.Reevaluation
import Stagecraft.Proofs.Restaging
import Stagecraft.Proofs.RunTimeAgreement
import Stagecraft.Proofs.RunTimePrograms
import Stagecraft.Proofs.Scoping
import Stagecraft.Proofs.SeparateCompilation
import Stagecraft.Proofs.Sessions
import Stagecraft.Proofs.Shapes
import Stagecraft.Proofs.Sharing
import Stagecraft.Proofs.SharingAgreement
import Stagecraft.Proofs.SharingLogic
import Stagecraft.Proofs.ShortestDecimals
import Stagecraft.Proofs.SlotCounts
import Stagecraft.Proofs.SlotLogic
import Stagecraft.Proofs.SlotPositions
import Stagecraft.Proofs.SourceTyping
import Stagecraft.Proofs.StackDiscipline
import Stagecraft.Proofs.Staging
import Stagecraft.Proofs.StoreGrowth
import Stagecraft.Proofs.TermEmission
import Stagecraft.Proofs.TermSlots
import Stagecraft.Proofs.Termination
import Stagecraft.Proofs.Unfolding
import Stagecraft.Proofs.UnfoldingLimit
import Stagecraft.Proofs.ValueCells
import Stagecraft.Proofs.World
import Stagecraft.Residual.CodeDepth
import Stagecraft.Residual.Definition
import Stagecraft.Residual.Error
import Stagecraft.Scope
import Stagecraft.Staged.Definition
import Stagecraft.Staged.FreeNames
import Stagecraft.Staged.Inferred
import Stagecraft.Staged.Pattern
import Stagecraft.Staged.Prelude
import Stagecraft.Staged.Term
import Stagecraft.Staged.Ty
import Stagecraft.Target.Artifact
import Stagecraft.Target.Instruction
import Stagecraft.Target.Location
import Stagecraft.Target.Nbt
import Stagecraft.Target.StackKind
import Stagecraft.Target.Tree
import Stagecraft.Text.Escaped
import Stagecraft.Text.Quoted
import Stagecraft.Text.Unprintable
