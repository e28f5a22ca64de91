import StaticAnalysis.Code.Report
import StaticAnalysis.Context.Reference
import StaticAnalysis.PointsTo.Report

/-!
# Sessions

A session is a pointer analysis that is driven by hand: pointers, flow edges and objects are put in
one by one, single rules are applied, and the state can be looked at in between. Mentioning a
pointer or an object puts it into the pool.

* `Command` — what can be asked for.
* `Session.perform` — carries out a command. A fault leaves the state in which it arose, with
  everything that the command has mentioned before.

Things that are shown get numbers, counted from the first time they are shown, by which one can
tell whether two of them are the same.
-/

namespace StaticAnalysis.PointsTo

/-- A step of a session. -/
inductive Command where
  | showPointer (p : PointerRef)
  | findPointer (p : PointerRef)
  | showObject (o : ObjectRef)
  | compareObjects (o q : ObjectRef)
  | receive (p : PointerRef) (objs : List ObjectRef)
  | objectsOf (p : PointerRef)
  | putFlow (source target : PointerRef)
  | successors (p : PointerRef)
  | flowEdges
  | putWaiting (p : PointerRef) (context : ContextRef) (stmt : Place)
  | waitingFor (p : PointerRef)
  | await (context : ContextRef) (stmt : Place) (v : VarRef)
  | addFlow (source target : PointerRef)
  | enter (context : ContextRef) (method : String)
  | propagate (p : PointerRef) (objs : List ObjectRef)
  | work
  | pointersOf (v : VarRef)
  | objects
  | calleeContext (context : ContextRef) (site : Place) (callee : String)
      (receiver : Option ObjectRef)
  | heapContext (context : ContextRef) (method : String) (alloc : Place)
  | contextText (context : ContextRef)
  | analyze (entries : List String)
  | analyzeFor (entries : List String) (context : ContextRef) (v : VarRef)

/-- What is shown with a number. -/
inductive Shown where
  | pointer (p : Pointer)
  | object (o : HeapObj)
  | alloc (a : Alloc)
deriving DecidableEq

/-- An analysis that is driven by hand. -/
structure Session where
  assembly : Assembly
  rules : Rules
  /-- The number of steps that a command may take. -/
  budget : Nat
  state : State := {}
  shown : List Shown := []

/-- The state in which a run ended, and the fault that ended it. -/
def Outcome.split : Outcome → State × Option Fault
  | finished st => (st, none)
  | failed st f => (st, some f)
  | unfinished c => (c.state, some .stepLimit)

/-- Work in a session, which may end in a fault. What was done before the fault stays done. -/
abbrev Act := ExceptT Fault (StateM Session)

namespace Act

def liftFault {α : Type} (x : Except Fault α) : Act α :=
  match x with
  | .ok a => pure a
  | .error f => throw f

/-- Looks something up among the declarations. -/
def find {α : Type} (f : Assembly → Except Fault α) : Act α := do liftFault (f (← get).assembly)

def state : Act State := do pure (← get).state

def setState (st : State) : Act Unit := modify fun s => { s with state := st }

def changeState (f : State → State) : Act Unit := modify fun s => { s with state := f s.state }

/-- Goes on with the state in which a run ended. -/
def conclude (o : Outcome) : Act State := do
  let (st, fault) := o.split
  setState st
  match fault with
  | none => pure st
  | some f => throw f

/-! ### References -/

/-- Mentions an object. -/
def object (o : ObjectRef) : Act HeapObj := do
  let obj ← find (·.objectOf o)
  changeState (·.mentionObj obj)
  pure obj

/-- The pointer that is written. Only the object that it belongs to is mentioned. -/
def unmentioned : PointerRef → Act Pointer
  | .var c v => do pure (.var (← find (·.contextOf c)) (← find (·.operandOf v)))
  | .static f => do pure (.static (← find (·.fieldOf f)))
  | .member o f => do pure (.member (← object o) (← find (·.fieldOf f)))
  | .element o => do pure (.element (← object o))

/-- Mentions a pointer. -/
def pointer (p : PointerRef) : Act Pointer := do
  let ptr ← unmentioned p
  changeState (·.mention ptr)
  pure ptr

def ctxStmt (c : ContextRef) (p : Place) : Act CtxStmt := do
  pure (← find (·.contextOf c), ← find (·.stmtOf p))

/-! ### Answers -/

/-- The number of a thing. -/
def number (x : Shown) : Act Report := do
  let all := adjoin (← get).shown x
  modify fun s => { s with shown := all }
  pure (.count ((all.idxOf? x).getD 0))

/-- Works off tasks. -/
def settle (st : State) (tasks : List Task) : Act Report := do
  let s ← get
  discard (conclude (s.rules.settle s.budget st tasks))
  pure .none

/-- Analyses the program with the given entries. -/
def analyze (entries : List String) : Act State := do
  let methods ← find fun a => entries.mapM a.methodOf
  let s ← get
  let p ← liftFault (Program.make s.rules.code methods)
  conclude (s.rules.analyze s.budget s.state p.entries)

def contextRow (c : Context) : Report := .list [.text (Context.text c), .count c.length]

def perform : Command → Act Report
  | .showPointer p => do
    let ptr ← pointer p
    pure (.list
      [.text ptr.text, .text ptr.describe, .text ptr.kindText, .flag ptr.isVar,
        ← number (.pointer ptr)])
  | .findPointer p => do
    let ptr ← unmentioned p
    match (← state).pool.pointerId? ptr with
    | none => pure .none
    | some _ => pure (.list [.text ptr.text, ← number (.pointer ptr)])
  | .showObject o => do
    let obj ← object o
    pure (.list
      [.text obj.text, .text obj.text, .text obj.alloc.text, obj.alloc.type.report,
        .text obj.alloc.site.method.signature, ← number (.object obj), ← number (.alloc obj.alloc)])
  | .compareObjects o q => do
    let x ← find (·.objectOf o)
    let y ← find (·.objectOf q)
    pure (.list [.flag (decide (x = y)), .count (distinct [x, y]).length])
  | .receive p objs => do
    let ptr ← pointer p
    let xs ← objs.mapM object
    let (delta, st) := (← state).receive ptr (distinct xs)
    setState st
    pure (.texts (objectTexts delta))
  | .objectsOf p => do
    let ptr ← pointer p
    pure (.texts (objectTexts ((← state).objectsOf ptr)))
  | .putFlow p q => do
    let source ← pointer p
    let target ← pointer q
    let (new, st) := (← state).putFlow source target
    setState st
    pure (.flag new)
  | .successors p => do
    let ptr ← pointer p
    pure (.sorted Pointer.text ((← state).successors ptr))
  | .flowEdges => do
    let st ← state
    pure (.list [.count st.flowSize, .each st.flowRows .texts])
  | .putWaiting p c s => do
    let ptr ← pointer p
    let w ← ctxStmt c s
    changeState (·.putWaiting ptr w)
    pure .none
  | .waitingFor p => do
    let ptr ← pointer p
    let layout := Layout.contextual (← get).rules.code
    pure (.texts (((← state).waitingFor ptr).map layout.siteText))
  | .await c s v => do
    let w ← ctxStmt c s
    let (st, tasks) := hold (← state) w (← find (·.operandOf v))
    settle st tasks
  | .addFlow p q => do
    let source ← pointer p
    let target ← pointer q
    changeState (·.addFlow source target)
    pure .none
  | .enter c m => do
    let context ← find (·.contextOf c)
    settle (← state) [.enter (context, ← find (·.methodOf m))]
  | .propagate p objs => do
    let ptr ← pointer p
    let xs ← objs.mapM object
    let (delta, st) := (← state).propagate (← get).rules.pointerOrder ptr (distinct xs)
    setState st
    pure (.texts (objectTexts delta))
  | .work => do
    let st ← state
    let rows := st.work.toList.map fun e => (e.1.text, objectTexts e.2)
    pure (.listRows (arrangeRows compareListRows st.isForced rows))
  | .pointersOf v => do
    let operand ← find (·.operandOf v)
    let st ← state
    pure (st.found Pointer.text (st.pool.pointersOf operand))
  | .objects => do
    let st ← state
    pure (st.found HeapObj.text st.pool.objects)
  | .calleeContext c s m receiver => do
    let w ← ctxStmt c s
    discard (find (·.methodOf m))
    let obj ← receiver.mapM object
    let chosen := (← get).rules.selector.calleeContext w.1 w.2 obj
    pure (contextRow (← liftFault (orFault chosen .notProvided)))
  | .heapContext c m p => do
    let context ← find (·.contextOf c)
    discard (find (·.methodOf m))
    discard (find fun a => do (← a.stmtOf p).alloc)
    pure (contextRow ((← get).rules.selector.heapContext context))
  | .contextText c => do pure (.text (Context.text (← find (·.contextOf c))))
  | .analyze entries => do
    let st ← analyze entries
    pure (.record (← liftFault (st.summary (← get).rules)))
  | .analyzeFor entries c v => do
    let st ← analyze entries
    let context ← find (·.contextOf c)
    let operand ← find (·.operandOf v)
    pure (.texts (objectTexts (st.lookup (.var context operand))))

end Act

/-- Carries out a command. -/
def Session.perform (s : Session) (c : Command) : Session × Except Fault Report :=
  ((Act.perform c).run.run s).swap

end StaticAnalysis.PointsTo
