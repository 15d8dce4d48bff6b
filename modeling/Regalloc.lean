import Regalloc.Allocation
import Regalloc.Bindings
import Regalloc.Coloring
import Regalloc.CommandLine
import Regalloc.Error
import Regalloc.Event
import Regalloc.Flow
import Regalloc.IndexSet
import Regalloc.Interference
import Regalloc.Liveness
import Regalloc.Machine.Exec
import Regalloc.Machine.Run
import Regalloc.Machine.Value
import Regalloc.Main
import Regalloc.Pipeline
import Regalloc.Program.Expr
import Regalloc.Program.Function
import Regalloc.Program.Instruction
import Regalloc.Program.Render
import Regalloc.Program.Variable
import Regalloc.Proofs.AllocationRounds
import Regalloc.Proofs.AssemblyText
import Regalloc.Proofs.BlockLayout
import Regalloc.Proofs.BlockRuns
import Regalloc.Proofs.CallSurvival
import Regalloc.Proofs.ColoringSound
import Regalloc.Proofs.ConfinedTemporaries
import Regalloc.Proofs.ConflictEdges
import Regalloc.Proofs.CycleLimit
import Regalloc.Proofs.DeadVariables
import Regalloc.Proofs.DepthFirst
import Regalloc.Proofs.DisturbedRun
import Regalloc.Proofs.EnoughRegisters
import Regalloc.Proofs.EvaluationSteps
import Regalloc.Proofs.FlowGraph
import Regalloc.Proofs.InstructionText
import Regalloc.Proofs.LiveEquations
import Regalloc.Proofs.LivePaths
import Regalloc.Proofs.LiveRenaming
import Regalloc.Proofs.LiveSteps
import Regalloc.Proofs.NameIndependence
import Regalloc.Proofs.NameTable
import Regalloc.Proofs.ObservedJumps
import Regalloc.Proofs.PassCount
import Regalloc.Proofs.PhraseReading
import Regalloc.Proofs.Phrases
import Regalloc.Proofs.PrintPhrases
import Regalloc.Proofs.PrintedTokens
import Regalloc.Proofs.ReadNames
import Regalloc.Proofs.ReadPhrases
import Regalloc.Proofs.ReadablePrograms
import Regalloc.Proofs.Refinement
import Regalloc.Proofs.RegisterAssignment
import Regalloc.Proofs.RemovalOrder
import Regalloc.Proofs.RoundTrip
import Regalloc.Proofs.RowMajor
import Regalloc.Proofs.SimpleConflicts
import Regalloc.Proofs.SpacedTokens
import Regalloc.Proofs.SpillChoice
import Regalloc.Proofs.SpillConflicts
import Regalloc.Proofs.SpillFrames
import Regalloc.Proofs.SpillMinting
import Regalloc.Proofs.SpillPoints
import Regalloc.Proofs.SpillPreserves
import Regalloc.Proofs.SpillRuns
import Regalloc.Proofs.SpillShape
import Regalloc.Proofs.SpillSimulation
import Regalloc.Proofs.SpillText
import Regalloc.Proofs.SpillUndo
import Regalloc.Proofs.SpilledSites
import Regalloc.Proofs.StackSlots
import Regalloc.Proofs.StaticFaults
import Regalloc.Proofs.StructuralSafety
import Regalloc.Proofs.SureColors
import Regalloc.Proofs.TruncatedReading
import Regalloc.Proofs.TruncatedSource
import Regalloc.Proofs.WellFormedHeap
import Regalloc.Source.Grammar
import Regalloc.Source.Reader
import Regalloc.Source.Refusal
import Regalloc.Source.Scan
import Regalloc.Source.Token
import Regalloc.Spill
import Regalloc.Target
import Regalloc.Text
