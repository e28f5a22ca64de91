import StaticAnalysis.CallGraph.Basic
import StaticAnalysis.CallGraph.Contextual
import StaticAnalysis.CallGraph.HierarchyAnalysis
import StaticAnalysis.CallGraph.Report
import StaticAnalysis.Code.Base
import StaticAnalysis.Code.Dispatch
import StaticAnalysis.Code.Fault
import StaticAnalysis.Code.Hierarchy
import StaticAnalysis.Code.Method
import StaticAnalysis.Code.Outline
import StaticAnalysis.Code.Report
import StaticAnalysis.Code.Stmt
import StaticAnalysis.Code.Type
import StaticAnalysis.Collection.Arrangement
import StaticAnalysis.Collection.FinSet
import StaticAnalysis.Collection.Ordered
import StaticAnalysis.Collection.Queue
import StaticAnalysis.Collection.Table
import StaticAnalysis.Context.Basic
import StaticAnalysis.Context.Reference
import StaticAnalysis.Context.Selector
import StaticAnalysis.ControlFlow.Cfg
import StaticAnalysis.ControlFlow.Icfg
import StaticAnalysis.Dataflow.AllocatedTypes
import StaticAnalysis.Dataflow.Engine
import StaticAnalysis.Dataflow.FactStore
import StaticAnalysis.Dataflow.GenKill
import StaticAnalysis.Dataflow.InterSolver
import StaticAnalysis.Dataflow.Labels
import StaticAnalysis.Dataflow.Report
import StaticAnalysis.Dataflow.Solver
import StaticAnalysis.Dataflow.WorkList
import StaticAnalysis.Log
import StaticAnalysis.PointsTo.Machine
import StaticAnalysis.PointsTo.Pool
import StaticAnalysis.PointsTo.Report
import StaticAnalysis.PointsTo.Result
import StaticAnalysis.PointsTo.Session
import StaticAnalysis.PointsTo.State
import StaticAnalysis.Report
import StaticAnalysis.Text.Blank
import StaticAnalysis.Text.Case
import StaticAnalysis.Text.Digit
import StaticAnalysis.Text.Ranges
import StaticAnalysis.Text.Row
import StaticAnalysis.Text.Sort
import StaticAnalysis.Proofs.PointsTo.Inference
import StaticAnalysis.Proofs.PointsTo.Views
import StaticAnalysis.Proofs.PointsTo.Steps
import StaticAnalysis.Proofs.PointsTo.Precision
import StaticAnalysis.Proofs.PointsTo.Soundness
import StaticAnalysis.Proofs.PointsTo.Finiteness
import StaticAnalysis.Proofs.PointsTo.Termination
import StaticAnalysis.Proofs.CallGraph.Projection
import StaticAnalysis.Proofs.PointsTo.Coarsening
import StaticAnalysis.Proofs.PointsTo.Monotonicity
import StaticAnalysis.Proofs.CallGraph.Subtypes
import StaticAnalysis.Proofs.CallGraph.HierarchyClosure
import StaticAnalysis.Proofs.CallGraph.Containment
import StaticAnalysis.Proofs.Dataflow.Equations
import StaticAnalysis.Proofs.ControlFlow.Adjacency
import StaticAnalysis.Proofs.Dataflow.Descent
import StaticAnalysis.Proofs.Dataflow.MaximalSolution
import StaticAnalysis.Proofs.ControlFlow.Linking
import StaticAnalysis.Proofs.Dataflow.InterMaximalSolution
import StaticAnalysis.Proofs.Dataflow.Stability
import StaticAnalysis.Proofs.Dataflow.SingleMethod
import StaticAnalysis.Proofs.Dataflow.SetFacts
import StaticAnalysis.Proofs.Dataflow.Paths
import StaticAnalysis.Proofs.PointsTo.Reuse
import StaticAnalysis.Proofs.PointsTo.UnknownStatements
import StaticAnalysis.Proofs.PointsTo.CallStrings
import StaticAnalysis.Proofs.PointsTo.ContextBounds
import StaticAnalysis.Proofs.CallGraph.Resolution
import StaticAnalysis.Proofs.CallGraph.LeastClosure
import StaticAnalysis.Proofs.CallGraph.Construction
import StaticAnalysis.Proofs.CallGraph.Folding
import StaticAnalysis.Proofs.ControlFlow.Matching
import StaticAnalysis.Proofs.Text.Reading
import StaticAnalysis.Proofs.Context.SelectorNames
import StaticAnalysis.Proofs.CallGraph.Discovery
import StaticAnalysis.Proofs.PointsTo.LoopHeads
import StaticAnalysis.Proofs.PointsTo.Discovery
import StaticAnalysis.Proofs.PointsTo.InFlight
import StaticAnalysis.Proofs.Code.SuperclassChains
import StaticAnalysis.Proofs.ControlFlow.FallThrough
import StaticAnalysis.Proofs.CallGraph.Indices
import StaticAnalysis.Proofs.PointsTo.Requests
import StaticAnalysis.Proofs.Code.Registration
import StaticAnalysis.Proofs.Code.Construction
import StaticAnalysis.Proofs.Dataflow.FirstInFirstOut
