import StaticAnalysis.Code.Dispatch
import StaticAnalysis.PointsTo.State

/-!
# The rules of the pointer analysis

The analysis is a machine. It works off an agenda of tasks; each task changes the state and may put
further tasks in front of the agenda, so that what a task has begun is finished before anything
else. When the agenda is empty the machine takes the next entry from the worklist, and when there
is none it has finished.

* `Task` — what may be on the agenda.
* `Rules.perform` — what a task does.
* `Rules.step`, `Rules.run` — the machine.
* `Rules.analyze` — the analysis of a program, `Rules.settle` — the completion of given tasks.

A task that cannot be done stops the machine with a fault. The state is then the one from before
the task, and the analysis can be taken up again from it.
-/

namespace StaticAnalysis.PointsTo

/-- What remains to be done. -/
inductive Task where
  /-- Make a method an entry. -/
  | root (m : Method)
  /-- Make a method reachable. -/
  | enter (m : CtxMethod)
  /-- Apply the rule of a statement of a reachable method. -/
  | exec (s : CtxStmt)
  /-- Apply a waiting statement to objects. -/
  | resume (s : CtxStmt) (objs : List HeapObj)
  /-- Make a call on a receiver object. -/
  | invoke (s : CtxStmt) (o : HeapObj)
  /-- Add a call edge. -/
  | link (e : CtxEdge)
  /-- Let arguments and results flow along a call edge. -/
  | wire (e : CtxEdge)
  /-- Apply the waiting statements of a pointer, from position `next` on, to new objects. -/
  | notify (p : Pointer) (next : Nat) (objs : List HeapObj)
deriving DecidableEq

/-- What an analysis depends on: the code, the choice of contexts, and the orders in which sets of
objects and of pointers are gone through. -/
structure Rules where
  code : CodeBase
  selector : Selector
  objectOrder : Arrangement HeapObj := .asListed
  pointerOrder : Arrangement Pointer := .asListed

/-- A machine: what it knows and what it has begun. -/
structure Config where
  state : State := {}
  agenda : List Task := []

/-- Lets a statement wait for a variable. The objects that it has already are treated at once. -/
def hold (st : State) (s : CtxStmt) (v : Operand) : State × List Task :=
  let (objs, st) := st.await s v
  (st, if objs.isEmpty then [] else [.resume s objs])

/-- Whether objects can flow through an operand. One that is left open has no type to tell. -/
def carriesObjects (v : Operand) : Except Fault Bool :=
  (orFault v .operandMissing).map Var.isReference

namespace Rules

variable (rules : Rules)

/-- A call without receiver object. -/
def callDirectly (st : State) (context : Context) (s : Stmt) (call : Call) :
    Except Fault (State × List Task) :=
  match rules.code.resolveCallee .unknown call with
  | none => .ok (st.record (.noTarget s), [])
  | some callee =>
    match rules.selector.calleeContext context s none with
    | none => .error .notProvided
    | some calleeContext =>
      .ok (st, [.link ⟨call.kind, (context, s), (calleeContext, callee)⟩])

/-- A call on a receiver object, which flows into the callee's receiver variable. -/
def callOn (st : State) (context : Context) (s : Stmt) (call : Call) (o : HeapObj) :
    Except Fault (State × List Task) :=
  match rules.code.resolveCallee o.alloc.type call with
  | none => .ok (st.record (.noTargetOn s o), [])
  | some callee =>
    match rules.selector.calleeContext context s (some o) with
    | none => .error .notProvided
    | some calleeContext =>
      let seeded := match callee.this? with
        | some v =>
          let p := Pointer.var calleeContext (some v)
          (st.mention p).send p [o]
        | none => st
      .ok (seeded, [.link ⟨call.kind, (context, s), (calleeContext, callee)⟩])

/-- The rule of a statement in a method that has become reachable under a context. Accesses to
objects and calls on them wait for the objects. -/
def exec (st : State) (context : Context) (s : Stmt) : Except Fault (State × List Task) :=
  match s.op with
  | .alloc target type =>
    let o : HeapObj := ⟨rules.selector.heapContext context, ⟨s.site, target, type⟩⟩
    let p := Pointer.var context target
    .ok (((st.mentionObj o).mention p).send p [o], [])
  | .copy target source =>
    (carriesObjects target).map fun flows =>
      (if flows then st.connect (.var context source) (.var context target) else st, [])
  | .loadField target base field =>
    if !field.type.isReference then .ok (st, [])
    else if field.isStatic then .ok (st.connect (.static field) (.var context target), [])
    else .ok (hold st (context, s) base)
  | .storeField base field source =>
    if !field.type.isReference then .ok (st, [])
    else if field.isStatic then .ok (st.connect (.var context source) (.static field), [])
    else .ok (hold st (context, s) base)
  | .loadElement target base =>
    (carriesObjects target).map fun flows =>
      if flows then hold st (context, s) base else (st, [])
  | .storeElement base source =>
    (carriesObjects source).map fun flows =>
      if flows then hold st (context, s) base else (st, [])
  | .call call =>
    match call.kind with
    | .static => rules.callDirectly st context s call
    | .dynamic => .ok (st.record (.skipped s), [])
    | _ => .ok (hold st (context, s) call.receiver)
  | .leave _ => .ok (st, [])
  | .nop => .ok (st, [])
  | .other _ => .error s.refusal

/-- Applies a waiting statement to objects. -/
def resume (st : State) (context : Context) (s : Stmt) (objs : List HeapObj) :
    Except Fault (State × List Task) :=
  let ordered := rules.objectOrder.arrange st.clock objs
  match s.op with
  | .loadField target _ field =>
    let p := Pointer.var context target
    .ok (ordered.foldl (fun st o => st.connect (.member o field) p) (st.mention p), [])
  | .storeField _ field source =>
    let p := Pointer.var context source
    .ok (ordered.foldl (fun st o => st.connect p (.member o field)) (st.mention p), [])
  | .loadElement target _ =>
    let p := Pointer.var context target
    .ok (ordered.foldl (fun st o => st.connect (.element o) p) (st.mention p), [])
  | .storeElement _ source =>
    let p := Pointer.var context source
    .ok (ordered.foldl (fun st o => st.connect p (.element o)) (st.mention p), [])
  | .call _ => .ok (st, ordered.map fun o => .invoke (context, s) o)
  | _ => .error s.refusal

/-- Lets the arguments flow into the parameters of the callee, as far as these can point to
objects, and what it returns into the result of the call. -/
def wire (st : State) (e : CtxEdge) : State :=
  match e.site.2.call? with
  | none => st
  | some call =>
    let (context, callee) := e.callee
    let pairs := (call.args.zip callee.params).filter fun p => p.2.isReference
    let st := pairs.foldl
      (fun st p => st.connect (.var e.site.1 p.1) (.var context (some p.2))) st
    match call.result with
    | none => st
    | some result =>
      if result.isReference then
        let p := Pointer.var e.site.1 (some result)
        (rules.code.body callee).returnVars.foldl
          (fun st v => st.connect (.var context (some v)) p) (st.mention p)
      else st

/-- Does a task. Gives the new state and the tasks that come next. -/
def perform (st : State) : Task → Except Fault (State × List Task)
  | .root m => .ok ({ st with graph := st.graph.addEntry ([], m) }, [.enter ([], m)])
  | .enter m =>
    match st.graph.addReachable m with
    | (false, _) => .ok (st, [])
    | (true, graph) =>
      .ok (({ st with graph := graph }).record (.reached m),
        (rules.code.body m.2).stmts.map fun s => .exec (m.1, s))
  | .exec s => rules.exec st s.1 s.2
  | .resume s objs => rules.resume st s.1 s.2 objs
  | .invoke s o =>
    match s.2.call? with
    | some call => rules.callOn st s.1 s.2 call o
    | none => .error s.2.refusal
  | .link e =>
    match st.graph.addEdge e with
    | (false, _) => .ok (st, [])
    | (true, graph) => .ok ({ st with graph := graph }, [.enter e.callee, .wire e])
  | .wire e => .ok (rules.wire st e, [])
  | .notify p next objs =>
    match (st.waitingFor p)[next]? with
    | none => .ok (st, [])
    | some s => .ok (st, [.resume s objs, .notify p (next + 1) objs])

/-- Takes the first entry from the worklist: the objects arrive at their pointer, and those that
are new there are shown to the statements that wait for it. -/
def turn (st : State) : Config :=
  match st.work.pop? with
  | none => ⟨st, []⟩
  | some ((p, objs), work) =>
    let st := ({ st with work := work }).record (.turn (work.size + 1))
    let (delta, st) := st.propagate rules.pointerOrder p objs
    ⟨st, if delta.isEmpty || !p.isVar then [] else [.notify p 0 delta]⟩

/-- Lets the clock go on. -/
def tick (c : Config) : Config := { c with state := { c.state with clock := c.state.clock + 1 } }

/-- One step of the machine. -/
def step (c : Config) : Except Fault Config :=
  match c.agenda with
  | [] => .ok (tick (rules.turn c.state))
  | task :: rest =>
    (rules.perform c.state task).map fun r => tick ⟨r.1, r.2 ++ rest⟩

end Rules

/-- How a run of the machine ended. -/
inductive Outcome where
  /-- Nothing was left to do. -/
  | finished (st : State)
  /-- A task could not be done; the state is the one from before it. -/
  | failed (st : State) (f : Fault)
  /-- The given number of steps was not enough. -/
  | unfinished (c : Config)

namespace Rules

variable (rules : Rules)

/-- Makes at most `n` steps, until the machine has come to rest. -/
def run (atRest : Config → Bool) : Nat → Config → Outcome
  | 0, c => if atRest c then .finished c.state else .unfinished c
  | n + 1, c =>
    if atRest c then .finished c.state
    else match rules.step c with
      | .ok c' => run atRest n c'
      | .error f => .failed c.state f

/-- Whether all tasks have been done. -/
def idle (c : Config) : Bool := c.agenda.isEmpty

/-- Whether all tasks have been done and no objects are on their way. -/
def done (c : Config) : Bool := c.agenda.isEmpty && c.state.work.isEmpty

/-- Works off tasks; entries of the worklist stay there. -/
def settle (n : Nat) (st : State) (tasks : List Task) : Outcome := rules.run idle n ⟨st, tasks⟩

/-- Analyses the methods that are reachable from the given entries, starting from a state that may
come from an earlier analysis. -/
def analyze (n : Nat) (st : State) (entries : List Method) : Outcome :=
  match rules.run done n ⟨st, entries.map .root⟩ with
  | .finished st =>
    .finished (st.record (.settled st.graph.reachable.length st.graph.size
      st.pool.pointers.length st.pool.objects.length))
  | other => other

end Rules

/-- The kinds of statements that rules are missing for, among all kinds. -/
def missingRules (omitted : List StmtKind) : List StmtKind :=
  StmtKind.all.filter fun k => decide (k ∈ omitted)

/-- An analysis can be set up only with rules for all kinds of statements. -/
def checkRules (omitted : List StmtKind) : Except Fault Unit :=
  match missingRules omitted with
  | [] => .ok ()
  | missing => .error (.rulesMissing missing)

end StaticAnalysis.PointsTo
