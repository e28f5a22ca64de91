import StaticAnalysis.Code.Fault
import StaticAnalysis.Collection.Table
import StaticAnalysis.Dataflow.WorkList

/-!
# The worklist engine

Both dataflow solvers work the same way. Every node has a fact on its input side and one on its
output side. A visit computes the input of a node from the outputs of other nodes, its output from
its input, and has the successors of the node visited if the output has changed.

An `Engine` says how inputs are gathered, how nodes transfer them, and which nodes come next.

* `Engine.visit` — one visit.
* `Engine.run` — visits until none is due, if the given number is enough.
-/

namespace StaticAnalysis.Dataflow

/-- The facts on both sides of the nodes. -/
structure Facts (N F : Type) where
  input : Table N F := {}
  output : Table N F := {}

namespace Facts

variable {N F : Type} [DecidableEq N]

/-- The input of a node that is visited. -/
def inputAt (fs : Facts N F) (n : N) : Except Fault F := orFault (fs.input.get? n) .nodeFactMissing

/-- The output of a node that is visited. -/
def outputAt (fs : Facts N F) (n : N) : Except Fault F :=
  orFault (fs.output.get? n) .nodeFactMissing

/-- The output of a node from which an edge comes. -/
def outputFrom (fs : Facts N F) (n : N) : Except Fault F :=
  orFault (fs.output.get? n) .sourceFactMissing

/-- Sets both facts of a node. -/
def set (fs : Facts N F) (n : N) (input output : F) : Facts N F :=
  ⟨fs.input.set n input, fs.output.set n output⟩

end Facts

/-- A solver at work. -/
structure Progress (N F : Type) where
  facts : Facts N F
  work : WorkList N
  /-- The nodes visited and whether their output changed, latest first. -/
  visits : List (N × Bool) := []

namespace Progress

variable {N F : Type}

/-- Whether no node has to be visited any more. -/
def isDone (st : Progress N F) : Bool := st.work.queue.isEmpty

end Progress

/-- How the facts of a node are computed, and which nodes depend on them. -/
structure Engine (N F : Type) where
  /-- The input of a node, from the facts of all nodes. -/
  gather : Facts N F → N → Except Fault F
  /-- The output of a node, from its input. -/
  transfer : N → F → Except Fault F
  /-- The nodes to be visited when the output of a node has changed. -/
  succs : N → List N

namespace Engine

variable {N F : Type} [DecidableEq N] [DecidableEq F] (e : Engine N F)

/-- Visits a node: computes both its facts anew and, if its output has changed, has its successors
visited. -/
def visit (st : Progress N F) (n : N) (rest : WorkList N) : Except Fault (Progress N F) := do
  let input ← e.gather st.facts n
  let output ← e.transfer n input
  let old ← st.facts.outputAt n
  let changed := decide (output ≠ old)
  pure
    { facts := st.facts.set n input output
      work := if changed then rest.addAll (e.succs n) else rest
      visits := (n, changed) :: st.visits }

/-- Visits the next node, if there is one. -/
def step (st : Progress N F) : Except Fault (Progress N F) :=
  match st.work.poll? with
  | none => .ok st
  | some (n, rest) => e.visit st n rest

/-- Makes visits until none is due. More than `limit` are a fault. -/
def run : Nat → Progress N F → Except Fault (Progress N F)
  | 0, st => if st.isDone then .ok st else .error .visitLimit
  | limit + 1, st => if st.isDone then .ok st else e.step st >>= run limit

end Engine

end StaticAnalysis.Dataflow
