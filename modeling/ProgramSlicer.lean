import ProgramSlicer.Library.ClosureMarking
import ProgramSlicer.Library.CallStrings
import ProgramSlicer.Library.ControlDependence
import ProgramSlicer.Library.FoldRules
import ProgramSlicer.Library.InclusionConstraints
import ProgramSlicer.Library.FiniteConstraints
import ProgramSlicer.Library.SystemNames
import ProgramSlicer.Library.Components
import ProgramSlicer.Library.MergeForest
import ProgramSlicer.Library.FormattedInput
import ProgramSlicer.Library.GrowingWalk
import ProgramSlicer.Library.HashTable
import ProgramSlicer.LlvmModule
import ProgramSlicer.DirectedGraph
import ProgramSlicer.Cdg
import ProgramSlicer.Sdg
import ProgramSlicer.SdgSteps
import ProgramSlicer.SdgEdges
import ProgramSlicer.Dependence
import ProgramSlicer.Slicing
import ProgramSlicer.SliceModule
import ProgramSlicer.BackwardSlice
import ProgramSlicer.KeptFunctions
import ProgramSlicer.EntryKept
import ProgramSlicer.CdgContract
import ProgramSlicer.AccumulatedControl
import ProgramSlicer.CallSites
import ProgramSlicer.NodeCoverage
import ProgramSlicer.ForwardSlice
import ProgramSlicer.SliceDuality
import ProgramSlicer.SliceConf
import ProgramSlicer.SliceCriteria
import ProgramSlicer.InsertionLog
import ProgramSlicer.InvalidNodes
import ProgramSlicer.MemoryEdges
import ProgramSlicer.Andersen.CycleDetector
import ProgramSlicer.Andersen.GraphWalk
import ProgramSlicer.Andersen.CycleDetection
import ProgramSlicer.Andersen.ComponentCalls
import ProgramSlicer.Andersen.NodeFactory
import ProgramSlicer.Andersen.MergeHistory
import ProgramSlicer.Andersen.SparseBitVectorGraph
import ProgramSlicer.Andersen.ConstraintSolving
import ProgramSlicer.Andersen.SolverInvariant
import ProgramSlicer.Andersen.NodeCollapse
import ProgramSlicer.Andersen.SolverStep
import ProgramSlicer.Andersen.SolverRun
import ProgramSlicer.Andersen.LeastSolution
import ProgramSlicer.Andersen.OfflineCycles
import ProgramSlicer.Andersen.HybridCollapse
import ProgramSlicer.Andersen.CycleOptimisation
import ProgramSlicer.Andersen.OfflineClassification
import ProgramSlicer.Andersen.GraphRepresentation
import ProgramSlicer.Andersen.AliasQueries
import ProgramSlicer.Andersen.PointerProgram
import ProgramSlicer.Andersen.ConstraintCollect
import ProgramSlicer.Andersen.GlobalConstraints
import ProgramSlicer.Andersen.InstructionConstraints
import ProgramSlicer.Andersen.Execution
import ProgramSlicer.Andersen.CollectionSound
import ProgramSlicer.Andersen.ExternalLibrary
import ProgramSlicer.Andersen.LibraryCalls
import ProgramSlicer.Andersen.LibrarySummaries
import ProgramSlicer.Andersen.ModuleFlows
import ProgramSlicer.Andersen.CollectedFlows
import ProgramSlicer.Andersen.FirstCollapse
import ProgramSlicer.Andersen.FlowEnumeration
import ProgramSlicer.Andersen.UnknownValues
import ProgramSlicer.Andersen.ConstraintOptimize
import ProgramSlicer.Library.VariableSubstitution
import ProgramSlicer.Library.ValueNumbering
import ProgramSlicer.Andersen.PredecessorGraph
import ProgramSlicer.Andersen.LabelPropagation
import ProgramSlicer.Andersen.PointerEquivalence
import ProgramSlicer.Andersen.ConstraintRewriting
import ProgramSlicer.Andersen.OfflineSubstitution
import ProgramSlicer.Andersen.WholeAnalysis
import ProgramSlicer.Andersen.NodeValues
import ProgramSlicer.Andersen.AnalysisClients
import ProgramSlicer.Andersen.ClientUpdates
import ProgramSlicer.Library.NextKept
import ProgramSlicer.Library.SlicedRuns
import ProgramSlicer.Interpreter
import ProgramSlicer.SliceSimulation
import ProgramSlicer.SliceMeaning
import ProgramSlicer.SliceAlgebra
import ProgramSlicer.ConfiguredSlices
import ProgramSlicer.MemoryDependence
import ProgramSlicer.Library.BinaryHeap
import ProgramSlicer.PtrAnalysis.Heap
import ProgramSlicer.PtrAnalysis.Worklist
import ProgramSlicer.Library.SortedBlocks
import ProgramSlicer.PtrAnalysis.BitmapElement
import ProgramSlicer.PtrAnalysis.SparseBitmap
import ProgramSlicer.PtrAnalysis.BitmapSets
import ProgramSlicer.PtrAnalysis.BitmapIteration
