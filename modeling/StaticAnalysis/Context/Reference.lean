import StaticAnalysis.Code.Outline
import StaticAnalysis.Context.Basic

/-!
# References

Statements, variables, contexts, objects and pointers as they are written with the identifiers of an
outline. An `Assembly` knows what the identifiers stand for. The parts of a reference are looked up
from left to right, so that of several unknown ones the first is reported. A statement that has no
text cannot be an element of a context, since contexts are written down.
-/

namespace StaticAnalysis

/-- How a statement is written: its method and its position there. -/
structure Place where
  method : String
  position : Int

/-- How a variable is written: its method and its name. Without a name it is an operand left
open. -/
structure VarRef where
  method : String
  name : Option String

inductive ElementRef where
  | label (name : String)
  | site (place : Place)
  /-- The abstract object of an allocation. -/
  | object (place : Place)
  | cls (id : String)

abbrev ContextRef := List ElementRef

structure ObjectRef where
  context : ContextRef
  place : Place

inductive PointerRef where
  | var (context : ContextRef) (v : VarRef)
  | static (field : String)
  | member (base : ObjectRef) (field : String)
  | element (base : ObjectRef)

namespace Assembly

variable (a : Assembly)

def classOf (id : String) : Except Fault Class := orFault (a.classes.get? id) (.notFound id)

def fieldOf (id : String) : Except Fault Field := orFault (a.fields.get? id) (.notFound id)

def methodOf (id : String) : Except Fault Method := orFault (a.methods.get? id) (.notFound id)

def stmtOf (p : Place) : Except Fault Stmt := do a.code.stmtAt (← a.methodOf p.method) p.position

def operandOf (v : VarRef) : Except Fault Operand := do
  let owner ← a.methodOf v.method
  pure (v.name.map fun name => (a.code.varNamed owner name .unknown).1)

def elementOf : ElementRef → Except Fault Element
  | .label name => .ok (.label name)
  | .site p => do
    let s ← a.stmtOf p
    discard (orFault s.text? .textMissing)
    pure (.site s)
  | .object p => do .object <$> (← a.stmtOf p).alloc
  | .cls id => .cls <$> a.classOf id

def contextOf (c : ContextRef) : Except Fault Context := c.mapM a.elementOf

def objectOf (o : ObjectRef) : Except Fault HeapObj := do
  pure ⟨← a.contextOf o.context, ← (← a.stmtOf o.place).alloc⟩

end Assembly

end StaticAnalysis
