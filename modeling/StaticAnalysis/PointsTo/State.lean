import StaticAnalysis.CallGraph.Contextual
import StaticAnalysis.Collection.Arrangement
import StaticAnalysis.Collection.Queue
import StaticAnalysis.Context.Selector
import StaticAnalysis.PointsTo.Pool

/-!
# The state of the pointer analysis

The pointer analysis knows, at any moment, which objects each pointer may point to, along which
edges objects flow from pointer to pointer, which methods are reachable under which contexts, and
which statements wait for the objects of a variable. Objects that are on their way to a pointer
stand in a worklist.

* `State.connect` — adds a flow edge and sends along it what its source has.
* `State.receive` — puts objects into a points-to set; `State.propagate` also sends the new ones on.
* `State.await` — makes a statement wait for the objects of a variable.

`Event` records what happened, for reports only: no rule of the analysis looks at it.
-/

namespace StaticAnalysis.PointsTo

/-- A call edge under contexts. -/
abbrev CtxEdge := CallEdge CtxStmt CtxMethod

/-- What happened during an analysis. -/
inductive Event where
  /-- A method became reachable. -/
  | reached (m : CtxMethod)
  /-- A call without receiver object has no target. -/
  | noTarget (s : Stmt)
  /-- A call has no target on an object. -/
  | noTargetOn (s : Stmt) (o : HeapObj)
  /-- A dynamic call was left alone. -/
  | skipped (s : Stmt)
  /-- An entry was about to be taken from a worklist of the given length. -/
  | turn (pending : Nat)
  /-- Objects arrived at a pointer; those in `delta` were new, and went on to so many pointers. -/
  | arrived (p : Pointer) (objs delta : List HeapObj) (successors : Nat)
  /-- A statement began to wait for a variable that has so many objects. -/
  | awaited (p : Pointer) (objs : Nat)
  /-- The worklist ran empty. -/
  | settled (reachable edges pointers objects : Nat)
deriving DecidableEq

/-- What the analysis knows. -/
structure State where
  pool : Pool := {}
  /-- The objects of each pointer, oldest first. -/
  pts : Table Pointer (List HeapObj) := {}
  /-- The flow edges by their sources. -/
  flow : Table Pointer (List Pointer) := {}
  graph : CallGraph CtxStmt CtxMethod := {}
  /-- The statements that wait for the objects of a pointer. -/
  waiting : Table Pointer (List CtxStmt) := {}
  /-- Objects on their way to pointers. -/
  work : Queue (Pointer × List HeapObj) := {}
  /-- The number of steps made. -/
  clock : Nat := 0
  /-- What happened, latest first. -/
  history : List Event := []
deriving DecidableEq

namespace State

variable (st : State)

/-- The objects that a pointer may point to. -/
def objectsOf (p : Pointer) : List HeapObj := st.pts.getD p []

/-- The pointers that take what a pointer has. -/
def successors (p : Pointer) : List Pointer := st.flow.getD p []

/-- The statements that wait for a pointer, in the order in which they came. -/
def waitingFor (p : Pointer) : List CtxStmt := st.waiting.getD p []

def record (e : Event) : State := { st with history := e :: st.history }

def mention (p : Pointer) : State := { st with pool := st.pool.mention p }

def mentionObj (o : HeapObj) : State := { st with pool := st.pool.mentionObj o }

/-- Puts objects on their way to a pointer. -/
def send (p : Pointer) (objs : List HeapObj) : State := { st with work := st.work.push (p, objs) }

/-- Adds a flow edge between mentioned pointers. Tells whether it is new. -/
def putFlow (source target : Pointer) : Bool × State :=
  if target ∈ st.successors source then (false, st)
  else (true, { st with flow := st.flow.push source target })

/-- Adds a flow edge and, if it is new, sends the objects of its source along it. -/
def addFlow (source target : Pointer) : State :=
  match st.putFlow source target with
  | (false, st) => st
  | (true, st) =>
    let objs := st.objectsOf source
    if objs.isEmpty then st else st.send target objs

/-- Mentions two pointers and adds a flow edge between them. -/
def connect (source target : Pointer) : State :=
  ((st.mention source).mention target).addFlow source target

/-- Puts objects into the points-to set of a pointer. Gives those that were new. -/
def receive (p : Pointer) (objs : List HeapObj) : List HeapObj × State :=
  let known := st.objectsOf p
  let delta := objs.filter fun o => decide (o ∉ known)
  (delta, { st with pts := st.pts.set p (known ++ delta) })

/-- Puts objects into the points-to set of a pointer and sends the new ones to its successors, in
the order that `order` gives. -/
def propagate (order : Arrangement Pointer) (p : Pointer) (objs : List HeapObj) :
    List HeapObj × State :=
  if objs.isEmpty then ([], st)
  else
    let (delta, st) := st.receive p objs
    let next := if delta.isEmpty then [] else order.arrange st.clock (st.successors p)
    let sent := next.foldl (fun st q => st.send q delta) st
    (delta, sent.record (.arrived p objs delta next.length))

/-- Lets a statement wait for the objects of a pointer. -/
def putWaiting (p : Pointer) (s : CtxStmt) : State := { st with waiting := st.waiting.push p s }

/-- Lets a statement wait for the objects of a variable, and gives those it has already. -/
def await (s : CtxStmt) (v : Operand) : List HeapObj × State :=
  let p := Pointer.var s.1 v
  let st := (st.mention p).putWaiting p s
  let objs := st.objectsOf p
  (objs, st.record (.awaited p objs.length))

end State

end StaticAnalysis.PointsTo
