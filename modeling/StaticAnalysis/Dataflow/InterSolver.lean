import StaticAnalysis.ControlFlow.Icfg
import StaticAnalysis.Dataflow.Solver

/-!
# Dataflow problems across methods

An `InterProblem` gives facts to the nodes of an interprocedural graph. The input of a node is the
meet, over the edges that enter it, of what the edges make of the outputs of their sources. It
begins with the boundary fact at the entries of entry methods and with the initial fact elsewhere.

As for a single method, `solveInter` is given an `InterPolicy`, of which operations may be missing.
Whether an edge has a transfer is asked before the fact that it would be applied to.

`SplitPolicy` is a policy whose transfers are given by the sort of node and the kind of edge.
-/

namespace StaticAnalysis.Dataflow

/-- A forward dataflow problem with facts `F` on the nodes `N` of methods `M`. -/
structure InterProblem (N M F : Type) where
  boundary : N → F
  initial : F
  meet : F → F → F
  transferNode : N → F → F
  transferEdge : IcfgEdge N M → F → F

/-- A problem of which operations may be missing. -/
structure InterPolicy (N M F : Type) where
  boundary : N → Except Fault F
  initial : Except Fault F
  meet : F → F → Except Fault F
  transferNode : N → F → Except Fault F
  transferEdge : IcfgEdge N M → Except Fault (F → F)

/-- The operations of a policy. -/
inductive InterPolicyOp where
  | boundary | initial | meet | transferNode | transferEdge
deriving DecidableEq

namespace InterPolicy

variable {N M F : Type}

/-- The policy of a problem, in which nothing is missing. -/
def ofProblem (p : InterProblem N M F) : InterPolicy N M F where
  boundary n := .ok (p.boundary n)
  initial := .ok p.initial
  meet x y := .ok (p.meet x y)
  transferNode n x := .ok (p.transferNode n x)
  transferEdge e := .ok (p.transferEdge e)

/-- The policy without some of its operations. -/
def without (p : InterPolicy N M F) (missing : List InterPolicyOp) : InterPolicy N M F where
  boundary n := if .boundary ∈ missing then .error .notProvided else p.boundary n
  initial := if .initial ∈ missing then .error .notProvided else p.initial
  meet x y := if .meet ∈ missing then .error .notProvided else p.meet x y
  transferNode n x := if .transferNode ∈ missing then .error .notProvided else p.transferNode n x
  transferEdge e := if .transferEdge ∈ missing then .error .notProvided else p.transferEdge e

end InterPolicy

/-! ### Policies by sort of node and kind of edge -/

/-- A policy that treats calls and other nodes, and the kinds of edges, each in its own way. -/
structure SplitPolicy (N M F : Type) where
  boundary : N → Except Fault F
  initial : Except Fault F
  meet : F → F → Except Fault F
  callNode : N → F → Except Fault F
  otherNode : N → F → Except Fault F
  normalEdge : IcfgEdge N M → Except Fault (F → F) := fun _ => .ok id
  callToReturnEdge : IcfgEdge N M → Except Fault (F → F)
  callEdge : IcfgEdge N M → Except Fault (F → F)
  returnEdge : IcfgEdge N M → Except Fault (F → F)

/-- The operations that a split policy may lack. Ordinary edges pass facts on as they are. -/
inductive SplitPolicyOp where
  | boundary | initial | meet | callNode | otherNode | callToReturnEdge | callEdge | returnEdge
deriving DecidableEq

namespace SplitPolicy

variable {N M F : Type}

/-- The policy without some of its operations. -/
def without (p : SplitPolicy N M F) (missing : List SplitPolicyOp) : SplitPolicy N M F where
  boundary n := if .boundary ∈ missing then .error .notProvided else p.boundary n
  initial := if .initial ∈ missing then .error .notProvided else p.initial
  meet x y := if .meet ∈ missing then .error .notProvided else p.meet x y
  callNode n x := if .callNode ∈ missing then .error .notProvided else p.callNode n x
  otherNode n x := if .otherNode ∈ missing then .error .notProvided else p.otherNode n x
  normalEdge := p.normalEdge
  callToReturnEdge e :=
    if .callToReturnEdge ∈ missing then .error .notProvided else p.callToReturnEdge e
  callEdge e := if .callEdge ∈ missing then .error .notProvided else p.callEdge e
  returnEdge e := if .returnEdge ∈ missing then .error .notProvided else p.returnEdge e

/-- The transfer of an edge by its kind. Edges of an unknown kind have none. -/
def transferEdge (p : SplitPolicy N M F) (e : IcfgEdge N M) : Except Fault (F → F) :=
  match e.kind with
  | .normal => p.normalEdge e
  | .callToReturn => p.callToReturnEdge e
  | .call => p.callEdge e
  | .ret => p.returnEdge e
  | .other label => .error (.unknownEdgeKind label)

/-- The policy put together, where `isCall` tells calls from other nodes. -/
def join (isCall : N → Bool) (p : SplitPolicy N M F) : InterPolicy N M F where
  boundary := p.boundary
  initial := p.initial
  meet := p.meet
  transferNode n x := if isCall n then p.callNode n x else p.otherNode n x
  transferEdge := p.transferEdge

end SplitPolicy

/-! ### The solver -/

namespace InterSolver

variable {N M F : Type} [DecidableEq N] [DecidableEq M]

/-- The fact that the meet at a node begins with. -/
def base (entries : List N) (p : InterPolicy N M F) (n : N) : Except Fault F :=
  if n ∈ entries then p.boundary n else p.initial

/-- Gives every node the fact that its meet begins with, on both sides. -/
def seed (entries : List N) (p : InterPolicy N M F) (fs : Facts N F) (n : N) :
    Except Fault (Facts N F) := do
  let f ← base entries p n
  pure (fs.set n f f)

/-- All nodes have their first facts and are to be visited. -/
def start (g : Icfg N M) (entries : List N) (p : InterPolicy N M F) :
    Except Fault (Progress N F) := do
  let facts ← g.nodes.foldlM (seed entries p) {}
  pure ⟨facts, .ofList g.nodes, []⟩

/-- The meet, over the edges that enter a node, of what they make of the outputs of their
sources. -/
def gather (g : Icfg N M) (entries : List N) (p : InterPolicy N M F) (fs : Facts N F) (n : N) :
    Except Fault F := do
  let first ← base entries p n
  (g.edgesInto n).foldlM
    (fun f e => do
      let along ← p.transferEdge e
      let out ← fs.outputFrom e.source
      p.meet f (along out))
    first

/-- The engine of a policy on an interprocedural graph. -/
def engine (g : Icfg N M) (entries : List N) (p : InterPolicy N M F) : Engine N F :=
  ⟨gather g entries p, p.transferNode, g.succsOf⟩

end InterSolver

/-- A solved problem. -/
structure InterSolution (N F : Type) where
  entries : List N
  nodes : List N
  final : Progress N F

namespace InterSolution

variable {N F : Type} [DecidableEq N]

def before (s : InterSolution N F) (n : N) : Option F := s.final.facts.input.get? n

def after (s : InterSolution N F) (n : N) : Option F := s.final.facts.output.get? n

/-- The visits, in order. -/
def trace (s : InterSolution N F) : List (N × Bool) := s.final.visits.reverse

/-- What the solver reports of its run. -/
def log (s : InterSolution N F) : LogLine :=
  ⟨.debug, "Interprocedural solving of " ++ toString s.nodes.length ++ " nodes took "
    ++ toString s.final.visits.length ++ " visits"⟩

end InterSolution

/-- Solves a problem on an interprocedural graph within a number of visits. Entry methods must have
graphs; `name` names those that have none. -/
def solveInter {N M F : Type} [DecidableEq N] [DecidableEq M] [DecidableEq F] (name : M → String)
    (limit : Nat) (g : Icfg N M) (p : InterPolicy N M F) : Except Fault (InterSolution N F) := do
  let entries ← g.entryNodes name
  let st ← InterSolver.start g entries p
  let final ← (InterSolver.engine g entries p).run limit st
  pure ⟨entries, g.nodes, final⟩

end StaticAnalysis.Dataflow
