import StaticAnalysis.Code.Hierarchy

/-!
# Code bases

A `CodeBase` holds all that has been declared: classes with their links and members, methods with
their bodies, and the hierarchy of the registered classes. It grows by declarations, and each of
them either gives a new code base or a fault; a fault changes nothing.

* `CodeBase.declareClass`, `declareField`, `declareMethod` — new members.
* `CodeBase.varNamed` — the variable of a name in a method, made if there is none.
* `Draft` — a statement as it is written down; `Draft.check` decides whether it is well formed.
* `CodeBase.addStmt` — puts a well-formed statement at the end of a body.
* `Program` — a code base with the methods at which its execution may start.
-/

namespace StaticAnalysis

/-- The abstract object that a statement creates. Only allocations create any. -/
def Stmt.alloc (s : Stmt) : Except Fault Alloc :=
  orFault s.alloc? (.misused s.kindText (.part "type"))

/-- The call that a statement makes. Only calls make any. -/
def Stmt.call (s : Stmt) : Except Fault Call :=
  orFault s.call? (.misused s.kindText (.part "methodRef"))

/-- What a class declares, apart from what is fixed in `Class`. -/
structure ClassInfo where
  links : Links := {}
  methods : Table String Method := {}
  fields : Table String Field := {}
deriving DecidableEq

/-- The variables of a method, in the order of their declaration, and its statements. -/
structure Body where
  vars : List Var := []
  stmts : List Stmt := []
deriving DecidableEq

namespace Body

/-- The variables whose values the method returns, statement by statement. -/
def returnVars (b : Body) : List Var := b.stmts.filterMap Stmt.returned?

/-- The call statements of the body. -/
def calls (b : Body) : List Stmt := b.stmts.filter Stmt.isCall

end Body

/-- All declarations of a program. -/
structure CodeBase where
  classes : Table Class ClassInfo := {}
  fields : List Field := []
  bodies : Table Method Body := {}
  hierarchy : Hierarchy := {}
deriving DecidableEq

namespace CodeBase

variable (code : CodeBase)

/-- What is known of a class; a class that was never declared has no members. -/
def info (c : Class) : ClassInfo := code.classes.getD c {}

/-- The body of a method; a method that was never declared has an empty one. -/
def body (m : Method) : Body := code.bodies.getD m {}

/-- The statement at a position of a method. Negative positions count from the end. -/
def stmtAt (m : Method) (i : Int) : Except Fault Stmt :=
  let stmts := (code.body m).stmts
  let position := if i < 0 then stmts.length + i else i
  orFault (if position < 0 then none else stmts[position.toNat]?) .noSuchPosition

/-- The direct superclass. -/
def superOf (c : Class) : Option Class := (code.info c).links.superclass

/-- The method that a class itself declares under a subsignature. -/
def declared? (c : Class) (subsignature : String) : Option Method :=
  (code.info c).methods.get? subsignature

/-- All methods that some class declares. -/
def declaredMethods : List Method := code.classes.values.flatMap fun i => i.methods.values

/-- Changes what is known of a class. -/
def updateInfo (c : Class) (f : ClassInfo → ClassInfo) : CodeBase :=
  { code with classes := code.classes.set c (f (code.info c)) }

/-- Changes the body of a method. -/
def updateBody (m : Method) (f : Body → Body) : CodeBase :=
  { code with bodies := code.bodies.set m (f (code.body m)) }

/-! ### Declarations -/

/-- Declares a class. It is not registered yet. -/
def declareClass (name : String) (links : Links) (isInterface isAbstract : Bool) :
    Class × CodeBase :=
  let c : Class := ⟨code.classes.size, name, isInterface, isAbstract || isInterface⟩
  (c, { code with classes := code.classes.set c { links := links } })

/-- Gives a class another superclass, or none. -/
def setSuper (c : Class) (s : Option Class) : CodeBase :=
  code.updateInfo c fun i => { i with links := { i.links with superclass := s } }

/-- Registers a class in the hierarchy. -/
def register (c : Class) : Except Fault CodeBase :=
  (code.hierarchy.register c (code.info c).links).map fun h => { code with hierarchy := h }

/-- Declares a field. A later field of the same name hides the earlier one in its class. -/
def declareField (owner : Class) (name : String) (type : Ty) (isStatic : Bool) :
    Field × CodeBase :=
  let f : Field := ⟨code.fields.length, name, owner, type, isStatic⟩
  let code := { code with fields := code.fields ++ [f] }
  (f, code.updateInfo owner fun i => { i with fields := i.fields.set name f })

/-- Declares a method. A later method of the same subsignature hides the earlier one in its
class. Without names the parameters are numbered. -/
def declareMethod (owner : Class) (name : String) (paramTypes : List Ty)
    (paramNames : Option (List String)) (returns : Ty) (isStatic isAbstract : Bool) :
    Method × CodeBase :=
  let names := paramNames.getD (Method.defaultNames paramTypes.length)
  let m : Method :=
    ⟨code.bodies.size, name, owner, paramTypes, names, returns, isStatic, isAbstract⟩
  let code := { code with bodies := code.bodies.set m { vars := m.headVars } }
  (m, code.updateInfo owner fun i => { i with methods := i.methods.set m.subsignature m })

/-- The variable of a name in a method. A new name is declared with the given type. -/
def varNamed (m : Method) (name : String) (type : Ty) : Var × CodeBase :=
  match (code.body m).vars.find? fun v => v.name == name with
  | some v => (v, code)
  | none =>
    let v : Var := ⟨name, m, type⟩
    (v, code.updateBody m fun b => { b with vars := b.vars ++ [v] })

end CodeBase

/-! ### Statements -/

/-- A statement as it is written down, before its operands are checked. -/
inductive Draft where
  | alloc (target : Operand) (type : Ty)
  | copy (target source : Operand)
  | loadField (target : Operand) (base : Option Var) (field : Field)
  | storeField (base : Option Var) (field : Field) (source : Operand)
  | loadElement (target base : Operand)
  | storeElement (base source : Operand)
  | call (kind : CallKind) (target : Option Target) (receiver : Option Var) (args : List Operand)
      (result : Option Var)
  | leave (value : Option Var)
  | nop
  | other (what : Unknown)
deriving DecidableEq

namespace Draft

/-- The call that is written down, if it names a method and has a receiver as its kind demands. -/
def checkCall (caller : Method) (kind : CallKind) (target : Option Target) (receiver : Option Var)
    (args : List Operand) (result : Option Var) : Except Fault Call :=
  match target with
  | none => .error (.targetMissing caller)
  | some t =>
    if kind = .static ∧ receiver.isSome then .error (.receiverUnexpected t)
    else if kind.needsReceiver ∧ receiver.isNone then .error (.receiverMissing kind t)
    else .ok ⟨kind, t, receiver, args, result⟩

/-- The operation that is written down, if its operands fit: an access to a field has a base
variable exactly when the field is not static, and calls satisfy `checkCall`. -/
def check (m : Method) : Draft → Except Fault Op
  | alloc target type => .ok (.alloc target type)
  | copy target source => .ok (.copy target source)
  | loadField target base field =>
    if field.isStatic = base.isNone then .ok (.loadField target base field)
    else .error (.loadBase field)
  | storeField base field source =>
    if field.isStatic = base.isNone then .ok (.storeField base field source)
    else .error (.storeBase field)
  | loadElement target base => .ok (.loadElement target base)
  | storeElement base source => .ok (.storeElement base source)
  | call kind target receiver args result =>
    (checkCall m kind target receiver args result).map .call
  | leave value => .ok (.leave value)
  | nop => .ok .nop
  | other what => .ok (.other what)

end Draft

namespace CodeBase

/-- Puts an operation at the end of a body. The statement's site is its position there. -/
def append (code : CodeBase) (m : Method) (op : Op) (refined : Bool) : CodeBase :=
  code.updateBody m fun b => { b with stmts := b.stmts ++ [⟨⟨b.stmts.length, m⟩, op, refined⟩] }

/-- Checks a statement and puts it at the end of a body. -/
def addStmt (code : CodeBase) (m : Method) (draft : Draft) (refined : Bool) :
    Except Fault CodeBase :=
  (draft.check m).map fun op => code.append m op refined

end CodeBase

/-- A code base with the methods at which its execution may start. -/
structure Program where
  code : CodeBase
  entries : List Method

namespace Program

/-- A program has at least one entry method. -/
def make (code : CodeBase) (entries : List Method) : Except Fault Program :=
  if entries.isEmpty then .error .noEntry else .ok ⟨code, entries⟩

end Program

end StaticAnalysis
