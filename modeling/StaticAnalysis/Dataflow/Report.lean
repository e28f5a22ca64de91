import StaticAnalysis.Dataflow.AllocatedTypes
import StaticAnalysis.Dataflow.GenKill
import StaticAnalysis.Dataflow.Labels
import StaticAnalysis.Report

/-!
# Reports on graphs and dataflow solutions

Nodes, methods and facts are written by functions that are given: a `Naming` has those for nodes
and methods. The log comes ready-made.
-/

namespace StaticAnalysis.Dataflow

/-- How nodes and methods are written, and which nodes are calls. -/
structure Naming (N M : Type) where
  node : N → String
  method : M → String
  isCall : N → Bool

namespace Naming

/-- Nodes and methods of a program. -/
def program : Naming Node Method := ⟨Node.place, Method.signature, Node.isCall⟩

/-- Nodes and methods that are only names; none of them is a call. -/
def bare : Naming String String := ⟨id, id, fun _ => false⟩

end Naming

/-- Nodes with the facts in front of them and behind them. -/
def factRows {N F : Type} (node : N → String) (fact : F → Report) (before after : N → Option F)
    (nodes : List N) : Report :=
  .each nodes fun n =>
    .list [.text (node n), .optional (before n) fact, .optional (after n) fact]

/-- The visits of a solver and whether they changed anything. -/
def traceRows {N : Type} (node : N → String) (trace : List (N × Bool)) : Report :=
  .each trace fun v => .list [.text (node v.1), .flag v.2]

def setReport {α : Type} [DecidableEq α] (f : α → String) (s : FinSet α) : Report :=
  .texts (s.texts f)

def TypeFact.report (f : TypeFact) : Report := .listRows (TypeFact.rows f)

section Intra

variable {N F : Type} [DecidableEq N]

/-- A solution on the nodes of a graph. -/
def Solution.report (node : N → String) (fact : F → Report) (log : LogLine → Report) (g : Cfg N)
    (s : Solution N F) : Report :=
  .record
    [("facts", factRows node fact s.before s.after g.nodes), ("trace", traceRows node s.trace),
      ("log", log s.log)]

/-- The nodes of a method's graph with their neighbours, and the solutions of the two problems on
it. -/
def flowReport (limit : Nat) (log : LogLine → Report) (g : Cfg Node) : Except Fault Report := do
  let live ← solve limit g (.ofProblem liveVariables)
  let reach ← solve limit g (.ofProblem reachingDefinitions)
  let places := fun ns => Report.texts (ns.map Node.place)
  pure (.record
    [("cfg", .each g.nodes fun n =>
        .list [.text n.place, places (g.succsOf n), places (g.predsOf n)]),
      ("len", .count g.size),
      ("live", live.report Node.place (setReport Operand.text) log g),
      ("reach", reach.report Node.place (setReport Stmt.place) log g)])

end Intra

section Inter

variable {N M F : Type} [DecidableEq N] [DecidableEq M] (naming : Naming N M)

def edgeReport (e : IcfgEdge N M) : Report :=
  .list
    [.text e.kind.label, .text (naming.node e.source), .text (naming.node e.target),
      .optionalText e.callSite naming.node, .optionalText e.callee naming.method]

/-- A node of an interprocedural graph with everything around it. The node must belong to some
method. -/
def nodeReport (g : Icfg N M) (n : N) : Except Fault Report :=
  match g.containerOf? n with
  | none => .error (.notFound (naming.node n))
  | some m =>
    let callee := fun c : Option M => (c.map naming.method).getD "None"
    .ok (.record
      [("node", .text (naming.node n)), ("method", .text (naming.method m)),
        ("out", .each (g.edgesOutOf n) (edgeReport naming)),
        ("in", .each (g.edgesInto n) (edgeReport naming)),
        ("succs", .texts ((g.succsOf n).map naming.node)),
        ("preds", .texts ((g.predsOf n).map naming.node)),
        ("callees", .sorted callee (g.calleesOf n))])

/-- A solution on an interprocedural graph. -/
def InterSolution.report (fact : F → Report) (log : LogLine → Report) (s : InterSolution N F) :
    Report :=
  .record
    [("facts", factRows naming.node fact s.before s.after s.nodes),
      ("entries", .sorted naming.node s.entries), ("trace", traceRows naming.node s.trace),
      ("log", log s.log)]

/-- The text of an edge, which needs those of its ends. -/
def edgeText (e : IcfgEdge Node Method) : Except Fault String := do
  let source ← orFault e.source.text? .textMissing
  let target ← orFault e.target.text? .textMissing
  pure (e.kind.label ++ ": " ++ source ++ " -> " ++ target)

/-- The ends of the methods of a program and, if wanted, all nodes and edges. -/
def icfgReport (full : Bool) (g : Icfg Node Method) : Except Fault (List (String × Report)) := do
  let nodes ← g.nodes.mapM (nodeReport .program g)
  let edges := g.nodes.flatMap g.edgesOutOf
  let ends : List (String × Report) :=
    [("entries", .texts (g.entries.map Method.signature)),
      ("ends", .each g.cfgs.values fun c => .texts [c.entry.place, c.exit.place])]
  if full then pure (ends ++ [("nodes", .list nodes), ("reprs", .texts (← edges.mapM edgeText))])
  else pure ends

end Inter

end StaticAnalysis.Dataflow
