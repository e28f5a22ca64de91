import StaticAnalysis.Collection.FinSet
import StaticAnalysis.Dataflow.InterSolver
import StaticAnalysis.Text.Row

/-!
# Allocated types

Which types of objects a variable may hold, followed through allocations, copies and calls. A fact
is a set of marks: the operands it speaks of, and for each of them the names of types that it may
hold. An operand may be marked without any type, when what it copies is not known.

The policy `allocatedTypes` works on any graph; a `CodeView` tells which of its nodes are
statements.
-/

namespace StaticAnalysis.Dataflow

/-- A piece of knowledge about an operand. -/
inductive TypeMark where
  /-- The fact speaks of the operand. -/
  | known (v : Operand)
  /-- The operand may hold an object of the named type. -/
  | holds (v : Operand) (type : String)
deriving DecidableEq

namespace TypeMark

def operand : TypeMark → Operand
  | known v => v
  | holds v _ => v

end TypeMark

/-- What is known about the types that variables hold. -/
abbrev TypeFact := FinSet TypeMark

namespace TypeFact

/-- Whether the fact speaks of an operand. -/
def knows (f : TypeFact) (v : Operand) : Bool := f.contains (.known v)

/-- The types that an operand may hold. -/
def typesOf (f : TypeFact) (v : Operand) : FinSet String :=
  f.filterMap fun m =>
    match m with
    | .holds w t => if w = v then some t else none
    | .known _ => none

/-- Forgets an operand. -/
def forget (f : TypeFact) (v : Operand) : TypeFact := f.filter fun m => decide (m.operand ≠ v)

/-- Lets an operand hold certain types and no others. -/
def assign (f : TypeFact) (v : Operand) (types : FinSet String) : TypeFact :=
  ((TypeFact.forget f v).insert (.known v)).union (types.filterMap fun t => some (.holds v t))

/-- The operands of a fact with their types, sorted. -/
def rows (f : TypeFact) : List ListRow :=
  (f.filterMap fun m =>
    match m with
    | .known v => some v
    | .holds _ _ => none).sortedBy compareListRows fun v =>
        (Operand.text v, (typesOf f v).texts id)

end TypeFact

open TypeFact

/-- What the nodes and methods of a graph stand for. -/
structure CodeView (N M : Type) where
  code : CodeBase
  stmt? : N → Option Stmt
  method? : M → Option Method

namespace CodeView

variable {N M : Type} (view : CodeView N M)

/-- The graph of a program stands for its statements and methods. -/
def ofCode (code : CodeBase) : CodeView Node Method := ⟨code, Node.stmt?, some⟩

/-- A graph that stands for nothing. -/
def blank : CodeView N M := ⟨{}, fun _ => none, fun _ => none⟩

/-- The call behind an edge. -/
def callOf? (e : IcfgEdge N M) : Option Call := (e.callSite.bind view.stmt?).bind Stmt.call?

/-- Allocations and copies write their targets. -/
def assignTypes (n : N) (f : TypeFact) : TypeFact :=
  match (view.stmt? n).map Stmt.op with
  | some (.alloc target type) => assign f target (.ofList [type.text])
  | some (.copy target source) => assign f target (typesOf f source)
  | _ => f

/-- After a call nothing is known of its result, unless a callee tells. -/
def forgetResult (n : N) (f : TypeFact) : TypeFact :=
  match ((view.stmt? n).bind Stmt.call?).bind Call.result with
  | some v => forget f (some v)
  | none => f

/-- The parameters of a callee hold what the arguments hold. -/
def passArguments (call : Call) (callee : Option Method) (f : TypeFact) : TypeFact :=
  let params := (callee.map Method.params).getD []
  (call.args.zip params).foldl
    (fun g p => if knows f p.1 then assign g (some p.2) (typesOf f p.1) else g) ∅

/-- The result of a call holds what the callee returns. -/
def passResult (call : Call) (callee : Option Method) (f : TypeFact) : TypeFact :=
  match call.result with
  | some result =>
    let returned := (callee.map fun m => (view.code.body m).returnVars).getD []
    assign ∅ (some result) (returned.foldl (fun ts v => ts.union (typesOf f (some v))) ∅)
  | none => ∅

end CodeView

/-- The policy that follows types through a program. -/
def allocatedTypes {N M : Type} (view : CodeView N M) : SplitPolicy N M TypeFact where
  boundary _ := .ok ∅
  initial := .ok ∅
  meet x y := .ok (x.union y)
  callNode n x := .ok (view.forgetResult n x)
  otherNode n x := .ok (view.assignTypes n x)
  callToReturnEdge _ := .ok id
  callEdge e := do
    let call ← orFault (view.callOf? e) (.callMissing "args")
    pure (CodeView.passArguments call (e.callee.bind view.method?))
  returnEdge e := do
    let call ← orFault (view.callOf? e) (.callMissing "result")
    pure (view.passResult call (e.callee.bind view.method?))

end StaticAnalysis.Dataflow
