import StaticAnalysis.Code.Base

/-!
# Control-flow graphs

A `Cfg N` has an entry, an exit and nodes in the order in which they were added. Successors and
predecessors are kept side by side.

* `Cfg.addNode`, `Cfg.addEdge` — the operations that build a graph; an edge adds its ends.
* `Cfg.reverse` — the same graph run through backward.
* `Cfg.ofMethod` — the graph of a method: statements follow each other, and a statement that leaves
  the method leads to the exit.
-/

namespace StaticAnalysis

/-- A control-flow graph over nodes `N`. -/
structure Cfg (N : Type) where
  entry : N
  exit : N
  nodes : List N
  succs : Table N (List N)
  preds : Table N (List N)

namespace Cfg

variable {N : Type}

/-- The graph with entry and exit exchanged and all edges turned round. -/
def reverse (g : Cfg N) : Cfg N := ⟨g.exit, g.entry, g.nodes, g.preds, g.succs⟩

variable [DecidableEq N]

/-- The graph that has only an entry and an exit. -/
def make (entry exit : N) : Cfg N := ⟨entry, exit, adjoin [entry] exit, {}, {}⟩

def addNode (g : Cfg N) (n : N) : Cfg N := { g with nodes := adjoin g.nodes n }

def succsOf (g : Cfg N) (n : N) : List N := g.succs.getD n []

def predsOf (g : Cfg N) (n : N) : List N := g.preds.getD n []

/-- Adds an edge and its ends. An edge that is there already changes nothing. -/
def addEdge (g : Cfg N) (source target : N) : Cfg N :=
  let g := (g.addNode source).addNode target
  if target ∈ g.succsOf source then g
  else
    { g with
      succs := g.succs.push source target
      preds := g.preds.push target source }

/-- The number of nodes. -/
def size (g : Cfg N) : Nat := g.nodes.length

end Cfg

/-- A node in the graph of a method: one of its statements, or one of the two ends. -/
inductive Node where
  | entry (m : Method)
  | exit (m : Method)
  | stmt (s : Stmt)
deriving DecidableEq

namespace Node

/-- A node by its place. -/
def place : Node → String
  | entry m => "Entry<" ++ m.signature ++ ">"
  | exit m => "Exit<" ++ m.signature ++ ">"
  | stmt s => s.place

/-- A node by what it does. -/
def text? : Node → Option String
  | stmt s => s.text?
  | n => some n.place

def stmt? : Node → Option Stmt
  | stmt s => some s
  | _ => none

def isCall (n : Node) : Bool := n.stmt?.any Stmt.isCall

end Node

namespace Cfg

/-- Adds statements behind `last`, the node from which control falls through, if there is one. -/
def layOut (g : Cfg Node) (last : Option Node) : List Stmt → Cfg Node
  | [] =>
    match last with
    | some n => g.addEdge n g.exit
    | none => g
  | s :: rest =>
    let g := match last with
      | some n => g.addEdge n (.stmt s)
      | none => g.addNode (.stmt s)
    if s.isLeave then layOut (g.addEdge (.stmt s) g.exit) none rest
    else layOut g (some (.stmt s)) rest

/-- The control-flow graph of a method. -/
def ofMethod (code : CodeBase) (m : Method) : Cfg Node :=
  layOut (make (.entry m) (.exit m)) (some (.entry m)) (code.body m).stmts

end Cfg

end StaticAnalysis
