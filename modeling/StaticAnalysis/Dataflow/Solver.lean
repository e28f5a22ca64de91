import StaticAnalysis.ControlFlow.Cfg
import StaticAnalysis.Dataflow.Engine
import StaticAnalysis.Log

/-!
# Dataflow problems on one control-flow graph

A `Problem` gives facts to the nodes of a control-flow graph: each node has a fact on its input
side, the meet of what its predecessors give out, and a fact on its output side, the transfer of the
first. A backward problem is a forward one on the reversed graph, so that its input side is the side
behind the node.

`solve` visits nodes from a worklist until no output changes any more. It is given a `Policy`, a
problem whose operations may be missing; asking for a missing one is a fault.

* `Policy.ofProblem` — the policy that has all operations.
* `Solver.gather` — the input of a node.
* `solve` — the solution, if the given number of visits is enough.
* `Solution.before`, `Solution.after` — the facts in front of and behind a node.
-/

namespace StaticAnalysis.Dataflow

/-- Whether facts flow along the edges of a graph or against them. -/
inductive Direction where
  | forward
  | backward
deriving DecidableEq

/-- A dataflow problem with facts `F` on nodes `N`. -/
structure Problem (N F : Type) where
  direction : Direction
  /-- The fact on the input side of the first node. -/
  boundary : F
  /-- The fact that meets begin with. -/
  initial : F
  meet : F → F → F
  /-- The output of a node from its input. -/
  transfer : N → F → F

/-- A dataflow problem of which operations may be missing. -/
structure Policy (N F : Type) where
  direction : Except Fault Direction
  boundary : Except Fault F
  initial : Except Fault F
  meet : F → F → Except Fault F
  transfer : N → F → Except Fault F

/-- The operations of a policy. -/
inductive PolicyOp where
  | direction | boundary | initial | meet | transfer
deriving DecidableEq

namespace Policy

variable {N F : Type}

/-- The policy of a problem, in which nothing is missing. -/
def ofProblem (p : Problem N F) : Policy N F where
  direction := .ok p.direction
  boundary := .ok p.boundary
  initial := .ok p.initial
  meet x y := .ok (p.meet x y)
  transfer n x := .ok (p.transfer n x)

/-- The policy without some of its operations. -/
def without (p : Policy N F) (missing : List PolicyOp) : Policy N F where
  direction := if .direction ∈ missing then .error .notProvided else p.direction
  boundary := if .boundary ∈ missing then .error .notProvided else p.boundary
  initial := if .initial ∈ missing then .error .notProvided else p.initial
  meet x y := if .meet ∈ missing then .error .notProvided else p.meet x y
  transfer n x := if .transfer ∈ missing then .error .notProvided else p.transfer n x

end Policy

namespace Solver

variable {N F : Type} [DecidableEq N]

/-- All nodes have the initial fact on both sides, the first node has the boundary fact on its
input side, and all nodes are to be visited. -/
def start (g : Cfg N) (p : Policy N F) : Except Fault (Progress N F) := do
  let initial ← p.initial
  let boundary ← p.boundary
  let everywhere := g.nodes.foldl (fun t n => t.set n initial) {}
  pure ⟨⟨everywhere.set g.entry boundary, everywhere⟩, .ofList g.nodes, []⟩

/-- The input of a node: for the first node what it is, for any other the meet of the outputs of
its predecessors, begun with the initial fact. -/
def gather (g : Cfg N) (p : Policy N F) (fs : Facts N F) (n : N) : Except Fault F := do
  if n = g.entry then fs.inputAt n
  else
    let initial ← p.initial
    (g.predsOf n).foldlM (fun f m => do p.meet f (← fs.outputFrom m)) initial

/-- The engine of a policy on a graph. -/
def engine (g : Cfg N) (p : Policy N F) : Engine N F := ⟨gather g p, p.transfer, g.succsOf⟩

end Solver

/-- A solved problem. -/
structure Solution (N F : Type) where
  direction : Direction
  size : Nat
  final : Progress N F

namespace Solution

variable {N F : Type} [DecidableEq N]

/-- The fact in front of a node. -/
def before (s : Solution N F) (n : N) : Option F :=
  match s.direction with
  | .forward => s.final.facts.input.get? n
  | .backward => s.final.facts.output.get? n

/-- The fact behind a node. -/
def after (s : Solution N F) (n : N) : Option F :=
  match s.direction with
  | .forward => s.final.facts.output.get? n
  | .backward => s.final.facts.input.get? n

/-- The visits, in order. -/
def trace (s : Solution N F) : List (N × Bool) := s.final.visits.reverse

/-- What the solver reports of its run. -/
def log (s : Solution N F) : LogLine :=
  let way := match s.direction with
    | .forward => "Forward"
    | .backward => "Backward"
  ⟨.debug, way ++ " solving of " ++ toString s.size ++ " nodes took "
    ++ toString s.final.visits.length ++ " visits"⟩

end Solution

/-- The graph as a problem of a direction runs through it. -/
def orient {N : Type} (d : Direction) (g : Cfg N) : Cfg N :=
  match d with
  | .forward => g
  | .backward => g.reverse

/-- Solves a dataflow problem within a number of visits. -/
def solve {N F : Type} [DecidableEq N] [DecidableEq F] (limit : Nat) (g : Cfg N)
    (p : Policy N F) : Except Fault (Solution N F) := do
  let direction ← p.direction
  let oriented := orient direction g
  let st ← Solver.start oriented p
  let final ← (Solver.engine oriented p).run limit st
  pure ⟨direction, g.size, final⟩

end StaticAnalysis.Dataflow
