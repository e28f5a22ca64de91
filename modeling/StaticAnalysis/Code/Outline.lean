import StaticAnalysis.Code.Base

/-!
# Outlines of programs

An `Outline` describes a program by identifiers: classes, fields, methods with their statements,
and entry methods. `Outline.assemble` makes the declarations in order and gives an `Assembly`, the
code base together with what the identifiers stand for.

Classes come first, then their registration, fields, heads of methods, and last the bodies, method
by method. A superclass may be declared later than its subclass. If an identifier is used twice it
stands for the later declaration.

A fault ends the assembly. A `lenient` outline goes on instead when a class cannot be registered or
a statement cannot be added: these are left out and the fault is noted. Variables that a statement
has named before its fault stay declared.
-/

namespace StaticAnalysis

/-- How an outline writes a type. A name may end in brackets, one pair for each array dimension. -/
inductive TypeExpr where
  | unknown
  | name (text : String)
  | prim (name : String)
  | plain (name : String)
  | array (element : TypeExpr)

/-- How an outline writes a variable: a name of the method at hand, or of another method. -/
inductive VarExpr where
  | own (name : String)
  | foreign (method : String) (name : String)

/-- How an outline writes the method that a call names. -/
inductive TargetExpr where
  | none
  | method (id : String)
  | member (cls : String) (subsignature : String)

/-- How an outline writes an operand. -/
abbrev OperandExpr := Option VarExpr

/-- The unknown operation of outlines that do not describe one of their own. -/
def Unknown.custom : Unknown := ⟨"Custom", some "custom"⟩

/-- How an outline writes a statement. -/
inductive StmtExpr where
  | alloc (target : OperandExpr) (type : TypeExpr)
  | copy (target source : OperandExpr)
  | loadField (target base : OperandExpr) (field : String)
  | storeField (base : OperandExpr) (field : String) (source : OperandExpr)
  | loadElement (target base : OperandExpr)
  | storeElement (base source : OperandExpr)
  | call (kind : String) (target : TargetExpr) (receiver : OperandExpr) (args : List OperandExpr)
      (result : OperandExpr)
  | leave (value : OperandExpr)
  | nop
  | other (what : Unknown := .custom)
  | refined (stmt : StmtExpr)

structure ClassDecl where
  id : String
  name : String
  superclass : Option String := none
  interfaces : List String := []
  isInterface : Bool := false
  isAbstract : Bool := false
  register : Bool := true

structure FieldDecl where
  id : String
  owner : String
  name : String
  type : TypeExpr := .unknown
  isStatic : Bool := false

structure MethodDecl where
  id : String
  owner : String
  name : String
  params : List TypeExpr := []
  paramNames : Option (List String) := none
  returns : TypeExpr := .name "void"
  isStatic : Bool := false
  isAbstract : Bool := false
  vars : List (String × TypeExpr) := []
  stmts : List StmtExpr := []

/-- The description of a program. -/
structure Outline where
  classes : List ClassDecl := []
  fields : List FieldDecl := []
  methods : List MethodDecl := []
  entries : List String := []
  lenient : Bool := false

/-- A code base and the meaning of the identifiers of its outline. -/
structure Assembly where
  code : CodeBase := {}
  classes : Table String Class := {}
  fields : Table String Field := {}
  methods : Table String Method := {}
  entries : List Method := []
  /-- The faults that a lenient outline has passed over. -/
  faults : List Fault := []
  /-- The serial number of the next type that is only a name. -/
  serial : Nat := Ty.firstFree

/-- Work on an assembly, which may end in a fault. What was done before the fault stays done. -/
abbrev Assemble := ExceptT Fault (StateM Assembly)

namespace Assemble

/-- What an identifier stands for in one of the tables. -/
def resolve {α : Type} (table : Assembly → Table String α) (id : String) : Assemble α := do
  match (table (← get)).get? id with
  | some a => pure a
  | none => throw (.notFound id)

def cls (id : String) : Assemble Class := resolve Assembly.classes id

def field (id : String) : Assemble Field := resolve Assembly.fields id

def method (id : String) : Assemble Method := resolve Assembly.methods id

/-- A serial number that was not used before. -/
def fresh : Assemble Nat :=
  modifyGet fun a => (a.serial, { a with serial := a.serial + 1 })

/-- Splits pairs of brackets off the end of a name, which is given in reverse: how many there are
beside those counted already, and the rest. -/
def brackets (count : Nat) : List Char → Nat × List Char
  | ']' :: '[' :: rest => brackets (count + 1) rest
  | rest => (count, rest)

/-- The array type of a given number of dimensions. -/
def arrayOf (element : Ty) : Nat → Ty
  | 0 => element
  | n + 1 => .array (arrayOf element n)

/-- The type of a name: one of the built-in types or a class, in as many array dimensions as
there are brackets. -/
def namedType (text : String) : Assemble Ty := do
  let (dimensions, rest) := brackets 0 text.toList.reverse
  let element ← match String.ofList rest.reverse with
    | "int" => pure Ty.int
    | "boolean" => pure Ty.boolean
    | "void" => pure Ty.void
    | id => Ty.cls <$> cls id
  pure (arrayOf element dimensions)

/-- The type that is written; every `prim` and `plain` is a type of its own. -/
def type : TypeExpr → Assemble Ty
  | .unknown => pure .unknown
  | .name text => namedType text
  | .prim name => do pure (.prim (← fresh) name)
  | .plain name => do pure (.named (← fresh) name)
  | .array element => do pure (.array (← type element))

/-- The variable of a name in a method. -/
def varNamed (m : Method) (name : String) (type : Ty) : Assemble Var :=
  modifyGet fun a =>
    let (v, code) := a.code.varNamed m name type
    (v, { a with code := code })

/-- The variable that is written in a statement of `m`. -/
def var (m : Method) : VarExpr → Assemble Var
  | .own name => varNamed m name .unknown
  | .foreign id name => do varNamed (← method id) name .unknown

def operand (m : Method) : OperandExpr → Assemble Operand
  | none => pure none
  | some e => some <$> var m e

def callKind (label : String) : Assemble CallKind :=
  match CallKind.ofLabel? label with
  | some k => pure k
  | none => throw (.notFound label)

def target : TargetExpr → Assemble (Option Target)
  | .none => pure none
  | .method id => do pure (some (← method id).target)
  | .member c subsignature => do pure (some ⟨← cls c, subsignature⟩)

/-- The statement that is written, with everything it names looked up from left to right, and
whether it is a special case of its kind. -/
def draft (m : Method) : StmtExpr → Assemble (Draft × Bool)
  | .alloc t ty => do pure (.alloc (← operand m t) (← type ty), false)
  | .copy t s => do pure (.copy (← operand m t) (← operand m s), false)
  | .loadField t b f => do pure (.loadField (← operand m t) (← operand m b) (← field f), false)
  | .storeField b f s => do pure (.storeField (← operand m b) (← field f) (← operand m s), false)
  | .loadElement t b => do pure (.loadElement (← operand m t) (← operand m b), false)
  | .storeElement b s => do pure (.storeElement (← operand m b) (← operand m s), false)
  | .call kind t r args res => do
    let kind ← callKind kind
    let named ← target t
    let receiver ← operand m r
    let arguments ← args.mapM (operand m)
    let result ← operand m res
    pure (.call kind named receiver arguments result, false)
  | .leave v => do pure (.leave (← operand m v), false)
  | .nop => pure (.nop, false)
  | .other what => pure (.other what, false)
  | .refined s => do pure ((← draft m s).1, true)

/-- Takes over a changed code base. -/
def commit (next : Except Fault CodeBase) : Assemble Unit :=
  match next with
  | .ok code => modify fun a => { a with code := code }
  | .error f => throw f

/-- Work whose fault a lenient assembly notes and passes over. -/
def attempt (lenient : Bool) (work : Assemble Unit) : Assemble Unit :=
  if lenient then tryCatch work fun f => modify fun a => { a with faults := a.faults ++ [f] }
  else work

/-- Declares a class. Gives the superclass that still has to be set, if it is not declared yet. -/
def declareClass (d : ClassDecl) : Assemble (Option (Class × String)) := do
  let known := (← get).classes
  let above := d.superclass.bind known.get?
  let interfaces ← d.interfaces.mapM cls
  let c ← modifyGet fun a =>
    let (c, code) := a.code.declareClass d.name ⟨above, interfaces⟩ d.isInterface d.isAbstract
    (c, { a with code := code, classes := a.classes.set d.id c })
  pure (match d.superclass, above with
    | some s, none => some (c, s)
    | _, _ => none)

def setSuper (c : Class) (above : String) : Assemble Unit := do
  let s ← cls above
  modify fun a => { a with code := a.code.setSuper c (some s) }

def registerClass (lenient : Bool) (d : ClassDecl) : Assemble Unit := do
  if d.register then
    let c ← cls d.id
    attempt lenient do commit ((← get).code.register c)

def declareField (d : FieldDecl) : Assemble Unit := do
  let owner ← cls d.owner
  let ty ← type d.type
  modify fun a =>
    let (f, code) := a.code.declareField owner d.name ty d.isStatic
    { a with code := code, fields := a.fields.set d.id f }

def declareMethod (d : MethodDecl) : Assemble Unit := do
  let owner ← cls d.owner
  let params ← d.params.mapM type
  let returns ← type d.returns
  modify fun a =>
    let (m, code) :=
      a.code.declareMethod owner d.name params d.paramNames returns d.isStatic d.isAbstract
    { a with code := code, methods := a.methods.set d.id m }

def addStmt (m : Method) (s : StmtExpr) : Assemble Unit := do
  let (written, refined) ← draft m s
  commit ((← get).code.addStmt m written refined)

/-- Declares the variables and adds the statements of a method. -/
def fillBody (lenient : Bool) (d : MethodDecl) : Assemble Unit := do
  let m ← method d.id
  d.vars.forM fun v => do
    let ty ← type v.2
    discard (varNamed m v.1 ty)
  d.stmts.forM fun s => attempt lenient (addStmt m s)

end Assemble

/-- The declarations of an outline, in order. -/
def Outline.declarations (o : Outline) : Assemble Unit := do
  let pending ← o.classes.mapM Assemble.declareClass
  (pending.filterMap id).forM fun p => Assemble.setSuper p.1 p.2
  o.classes.forM (Assemble.registerClass o.lenient)
  o.fields.forM Assemble.declareField
  o.methods.forM Assemble.declareMethod
  o.methods.forM (Assemble.fillBody o.lenient)
  let entries ← o.entries.mapM Assemble.method
  modify fun a => { a with entries := entries }

/-- Makes all declarations of an outline. -/
def Outline.assemble (o : Outline) : Except Fault Assembly :=
  let (ended, assembly) := o.declarations.run.run {}
  ended.map fun _ => assembly

namespace Assembly

/-- The program that starts at the entry methods. -/
def program (a : Assembly) : Except Fault Program := Program.make a.code a.entries

end Assembly

end StaticAnalysis
