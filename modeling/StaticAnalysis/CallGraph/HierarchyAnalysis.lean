import StaticAnalysis.CallGraph.Basic
import StaticAnalysis.Code.Dispatch
import StaticAnalysis.Collection.Arrangement
import StaticAnalysis.Log

/-!
# Call graphs from the class hierarchy

Which methods a call may run is read off the class hierarchy: a virtual or interface call may run
the method of every subtype of the class it names.

* `explore` — everything that can be reached from a queue by a successor function.
* `CodeBase.subtypes` — a class and all its subtypes, nearest first.
* `CodeBase.resolve` — the possible targets of a call.
* `HierarchyAnalysis.build` — the call graph of all methods that the entries reach. The targets of a
  call are a set; an `Arrangement` fixes the order in which they are taken.
-/

namespace StaticAnalysis

/-- Breadth-first search: what `seen` has and what the queue reaches, nearest first. At most `n`
elements of the queue are taken. -/
def explore {α : Type} [DecidableEq α] (next : α → List α) : Nat → List α → List α → List α
  | 0, _, seen => seen
  | _ + 1, [], seen => seen
  | n + 1, a :: queue, seen =>
    let fresh := distinct ((next a).filter fun b => decide (b ∉ seen))
    explore next n (queue ++ fresh) (seen ++ fresh)

namespace CodeBase

variable (code : CodeBase)

/-- A class and all its registered subtypes, nearest first. -/
def subtypes (c : Class) : List Class :=
  explore code.hierarchy.below (code.hierarchy.linkCount + 1) [c] [c]

/-- The possible targets of a call. -/
def resolve (call : Call) : List Method :=
  match call.kind with
  | .static | .special => (code.dispatch call.target.owner call.target.subsignature).toList
  | .virtual | .interface =>
    distinct ((code.subtypes call.target.owner).filterMap fun c =>
      code.dispatch c call.target.subsignature)
  | .dynamic => []

end CodeBase

namespace HierarchyAnalysis

/-- A call graph in the making. -/
structure State where
  graph : CallGraph Stmt Method := {}
  /-- Methods that may still have to be visited. -/
  queue : List Method := []
  /-- The calls resolved so far with the number of their targets, latest first. -/
  resolved : List (Stmt × Nat) := []

/-- Adds the edges of a call and queues its targets. -/
def State.addCall (code : CodeBase) (order : Arrangement Method) (st : State) (s : Stmt) : State :=
  match s.call? with
  | none => st
  | some call =>
    let targets := order.arrange st.resolved.length (code.resolve call)
    { graph := targets.foldl (fun g m => (g.addEdge ⟨call.kind, s, m⟩).2) st.graph
      queue := st.queue ++ targets
      resolved := (s, targets.length) :: st.resolved }

/-- Visits methods from the queue until none is left that was not reached before. At most `n` new
methods are visited. -/
def visitAll (code : CodeBase) (order : Arrangement Method) : Nat → State → State
  | 0, st => st
  | n + 1, st =>
    match st.queue.dropWhile st.graph.isReachable with
    | [] => { st with queue := [] }
    | m :: queue =>
      let reached := { st with graph := (st.graph.addReachable m).2, queue := queue }
      visitAll code order n ((code.body m).calls.foldl (State.addCall code order) reached)

/-- A visit reaches a new method, which is an entry or is declared by some class. -/
def visitLimit (p : Program) : Nat := p.entries.length + p.code.declaredMethods.length + 1

/-- The call graph of the methods that the entries of a program reach. -/
def run (p : Program) (order : Arrangement Method) : State :=
  visitAll p.code order (visitLimit p)
    { graph := p.entries.foldl CallGraph.addEntry {}, queue := p.entries }

/-- The call graph that `run` ends with. -/
def build (p : Program) (order : Arrangement Method) : CallGraph Stmt Method := (run p order).graph

/-- Whether no call had two targets, so that the result does not depend on the arrangement. -/
def State.isForced (st : State) : Bool := st.resolved.all fun r => r.2 ≤ 1

/-- What the construction reports: the calls without target, and at the end the size of the
graph. -/
def State.log (st : State) : List LogLine :=
  let missed := st.resolved.reverse.filter fun r => r.2 == 0
  let size := "CHA call graph: " ++ toString st.graph.reachable.length ++ " reachable methods, "
    ++ toString st.graph.size ++ " edges"
  (missed.map fun r => ⟨.debug, "No target for " ++ r.1.text⟩) ++ [⟨.info, size⟩]

end HierarchyAnalysis

end StaticAnalysis
