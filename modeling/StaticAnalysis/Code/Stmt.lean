import StaticAnalysis.Code.Method

/-!
# Statements

A statement is an operation at a site. The site identifies the statement, so that the same
operation at two places of a method is two statements.

* `Operand` — a place for a variable, which may be left open.
* `Op` — what a statement does; `Op.other` is any operation that the analyses do not know, and
  `Unknown` what can be told about it.
* `Op.text?` — how a statement is written. One of an unknown kind may have no text.
* `Stmt.defines?`, `Stmt.uses` — the variable a statement writes and the operands it reads.
* `Alloc` — an allocation statement seen as the abstract object that it creates.
-/

namespace StaticAnalysis

/-- The place of a statement in a method. -/
structure Site where
  index : Nat
  method : Method
deriving DecidableEq

/-- How the target of a call is found. -/
inductive CallKind where
  /-- On the declared class, without receiver. -/
  | static
  /-- On the declared class, with a receiver. -/
  | special
  /-- On the class of the receiver. -/
  | virtual
  /-- On the class of the receiver, through an interface. -/
  | interface
  /-- At run time, by rules the analyses do not know. -/
  | dynamic
deriving DecidableEq

namespace CallKind

def all : List CallKind := [static, special, virtual, interface, dynamic]

/-- The kind as written in statements. -/
def text : CallKind → String
  | static => "static"
  | special => "special"
  | virtual => "virtual"
  | interface => "interface"
  | dynamic => "dynamic"

/-- The kind as written in rows of reports. -/
def label : CallKind → String
  | static => "STATIC"
  | special => "SPECIAL"
  | virtual => "VIRTUAL"
  | interface => "INTERFACE"
  | dynamic => "DYNAMIC"

/-- The kind as the first word of a sentence. -/
def title : CallKind → String
  | static => "Static"
  | special => "Special"
  | virtual => "Virtual"
  | interface => "Interface"
  | dynamic => "Dynamic"

def needsReceiver : CallKind → Bool
  | special | virtual | interface => true
  | static | dynamic => false

def ofLabel? (s : String) : Option CallKind := all.find? fun k => k.label == s

end CallKind

/-- The method that a call names: a class and a subsignature. -/
structure Target where
  owner : Class
  subsignature : String
deriving DecidableEq

namespace Target

/-- A target is written like the signature of a method. -/
def text (t : Target) : String := "<" ++ t.owner.name ++ ": " ++ t.subsignature ++ ">"

/-- The text of a target that may be missing. -/
def optionalText (t : Option Target) : String := (t.map text).getD "None"

end Target

/-- The target that names a method itself. -/
def Method.target (m : Method) : Target := ⟨m.owner, m.subsignature⟩

/-- What stands at the place of a variable. All places that are left open count as one and the same
variable, which has no name and belongs to no method. -/
abbrev Operand := Option Var

namespace Operand

def text : Operand → String
  | some v => v.text
  | none => "None"

end Operand

structure Call where
  kind : CallKind
  target : Target
  receiver : Option Var
  args : List Operand
  result : Option Var
deriving DecidableEq

/-- What can be told about an operation that the analyses do not know. -/
structure Unknown where
  /-- The name of its kind. -/
  kind : String
  /-- How it is written. There is no text if the kind does not tell how its statements are
  written. -/
  text : Option String
deriving DecidableEq

inductive Op where
  | alloc (target : Operand) (type : Ty)
  | copy (target source : Operand)
  /-- Reads a field: of the object in `base`, or of the class if the field is static. -/
  | loadField (target : Operand) (base : Option Var) (field : Field)
  | storeField (base : Option Var) (field : Field) (source : Operand)
  | loadElement (target base : Operand)
  | storeElement (base source : Operand)
  | call (c : Call)
  | leave (value : Option Var)
  | nop
  /-- An operation that the analyses do not know. -/
  | other (what : Unknown)
deriving DecidableEq

/-- The kinds of statements that the analyses know. -/
inductive StmtKind where
  | alloc | copy | loadField | storeField | loadElement | storeElement | call | leave | nop
deriving DecidableEq

namespace StmtKind

def all : List StmtKind :=
  [alloc, copy, loadField, storeField, loadElement, storeElement, call, leave, nop]

def text : StmtKind → String
  | alloc => "New"
  | copy => "Copy"
  | loadField => "LoadField"
  | storeField => "StoreField"
  | loadElement => "LoadArray"
  | storeElement => "StoreArray"
  | call => "Invoke"
  | leave => "Return"
  | nop => "Nop"

def ofText? (s : String) : Option StmtKind := all.find? fun k => k.text == s

end StmtKind

namespace Op

def kind? : Op → Option StmtKind
  | alloc _ _ => some .alloc
  | copy _ _ => some .copy
  | loadField _ _ _ => some .loadField
  | storeField _ _ _ => some .storeField
  | loadElement _ _ => some .loadElement
  | storeElement _ _ => some .storeElement
  | call _ => some .call
  | leave _ => some .leave
  | nop => some .nop
  | other _ => none

/-- The variable that the operation writes. -/
def defines? : Op → Option Var
  | alloc target _ => target
  | copy target _ => target
  | loadField target _ _ => target
  | loadElement target _ => target
  | call c => c.result
  | _ => none

/-- A variable as an operand, if there is one. -/
def operands (v : Option Var) : List Operand := v.toList.map some

/-- The operands that the operation reads. -/
def uses : Op → List Operand
  | copy _ source => [source]
  | loadField _ base _ => operands base
  | storeField base _ source => operands base ++ [source]
  | loadElement _ base => [base]
  | storeElement base source => [base, source]
  | call c => operands c.receiver ++ c.args
  | leave value => operands value
  | _ => []

def allocText (target : Operand) (type : Ty) : String := target.text ++ " = new " ++ type.text

/-- The owner of a field in the text of an access: the base variable or the class. -/
def ownerText (base : Option Var) (field : Field) : String :=
  match base with
  | some v => v.text
  | none => field.owner.name

def callText (c : Call) : String :=
  let head := match c.result with
    | some v => v.text ++ " = "
    | none => ""
  let receiver := match c.receiver with
    | some v => v.text ++ "."
    | none => ""
  head ++ "invoke" ++ c.kind.text ++ " " ++ receiver ++ c.target.text
    ++ "(" ++ String.intercalate ", " (c.args.map Operand.text) ++ ")"

/-- How the operation is written. -/
def text? : Op → Option String
  | alloc target type => some (allocText target type)
  | copy target source => some (target.text ++ " = " ++ source.text)
  | loadField target base field =>
    some (target.text ++ " = " ++ ownerText base field ++ "." ++ field.name)
  | storeField base field source =>
    some (ownerText base field ++ "." ++ field.name ++ " = " ++ source.text)
  | loadElement target base => some (target.text ++ " = " ++ base.text ++ "[*]")
  | storeElement base source => some (base.text ++ "[*] = " ++ source.text)
  | call c => some (callText c)
  | leave (some v) => some ("return " ++ v.text)
  | leave none => some "return"
  | nop => some "nop"
  | other what => what.text

end Op

/-- A statement: an operation at a site. -/
structure Stmt where
  /-- The place that identifies the statement. -/
  site : Site
  op : Op
  /-- Whether it was declared as a special case of its kind. It behaves like the kind. -/
  refined : Bool := false
deriving DecidableEq

/-- Whether two statements are the same. A shared value is noticed at once. -/
instance Stmt.decEq : DecidableEq Stmt := fun s t =>
  withPtrEqDecEq s t fun _ => instDecidableEqStmt s t

namespace Stmt

def method (s : Stmt) : Method := s.site.method

def index (s : Stmt) : Nat := s.site.index

def text? (s : Stmt) : Option String := s.op.text?

/-- The text of a statement that is sure to have one, such as a call. -/
def text (s : Stmt) : String := s.text?.getD ""

/-- How a statement with this text is shown in listings. -/
def described (text : String) : String := "IRStmt: " ++ text

/-- The statement by its place: signature and position. -/
def place (s : Stmt) : String := s.method.signature ++ "#" ++ toString s.index

/-- The name of the statement's kind in reports. -/
def kindText (s : Stmt) : String :=
  let name := match s.op with
    | .other what => what.kind
    | op => (op.kind?.map StmtKind.text).getD ""
  if s.refined then "Sub" ++ name else name

/-- The variable that the statement writes. -/
def defines? (s : Stmt) : Option Var := s.op.defines?

/-- The operands that the statement reads. -/
def uses (s : Stmt) : List Operand := s.op.uses

def call? (s : Stmt) : Option Call :=
  match s.op with
  | .call c => some c
  | _ => none

def isCall (s : Stmt) : Bool := s.call?.isSome

def isLeave (s : Stmt) : Bool :=
  match s.op with
  | .leave _ => true
  | _ => false

/-- The variable whose value the statement returns. -/
def returned? (s : Stmt) : Option Var :=
  match s.op with
  | .leave value => value
  | _ => none

end Stmt

/-- An abstract object: all objects that one allocation statement creates. -/
structure Alloc where
  site : Site
  target : Operand
  type : Ty
deriving DecidableEq

/-- Whether two abstract objects are the same. A shared value is noticed at once. -/
instance Alloc.decEq : DecidableEq Alloc := fun a b =>
  withPtrEqDecEq a b fun _ => instDecidableEqAlloc a b

namespace Alloc

def text (a : Alloc) : String :=
  "NewObj\x7b" ++ a.site.method.signature ++ "[" ++ toString a.site.index ++ "]"
    ++ Op.allocText a.target a.type ++ "\x7d"

end Alloc

/-- The abstract object that an allocation statement creates. -/
def Stmt.alloc? (s : Stmt) : Option Alloc :=
  match s.op with
  | .alloc target type => some ⟨s.site, target, type⟩
  | _ => none

end StaticAnalysis
