import StaticAnalysis.Code.Stmt

/-!
# Faults

`Fault` lists the reasons why an operation of the library gives no result, and `Fault.message` is
the only place where their wording stands.
-/

namespace StaticAnalysis

/-- What can be wanted of a thing that does not offer it. -/
inductive Want where
  /-- A part or an operation of the given name. -/
  | part (name : String)
  /-- Its elements, one after the other. -/
  | elements
  /-- Whether it has a given element. -/
  | membership
  /-- The number of its elements. -/
  | size
deriving DecidableEq

/-- The reasons for which an operation gives no result. -/
inductive Fault where
  /-- A class name is registered a second time. -/
  | classDefinedTwice (name : String)
  /-- A read of a field has a base variable exactly when the field is static. -/
  | loadBase (field : Field)
  /-- A write of a field has a base variable exactly when the field is static. -/
  | storeBase (field : Field)
  /-- A call names no method. -/
  | targetMissing (caller : Method)
  /-- A static call has a receiver. -/
  | receiverUnexpected (target : Target)
  /-- A call that dispatches on its receiver has none. -/
  | receiverMissing (kind : CallKind) (target : Target)
  /-- A program has no entry method. -/
  | noEntry
  /-- An analysis was set up without rules for some kinds of statements. -/
  | rulesMissing (kinds : List StmtKind)
  /-- An analysis met a statement that it has no rule for, which is written like this. -/
  | unknownStatement (text : String)
  /-- A statement was to be written down whose kind does not tell how. -/
  | textMissing
  /-- A selector name is not known. -/
  | unknownSelector (name : String)
  /-- A selector's depth is made of digits that are no decimals. -/
  | depthNotDecimal (depth : String)
  /-- A selector's depth has too many digits. -/
  | depthTooLong (digits : Nat)
  /-- A selector's depth is to be written that has too many digits. -/
  | depthUnwritable
  /-- The name of a selector is wanted that has none. -/
  | namelessSelector
  /-- An operand is left open whose type decides what a statement does. -/
  | operandMissing
  /-- An edge of an interprocedural graph has a kind without transfer rule. -/
  | unknownEdgeKind (kind : String)
  /-- A policy or a selector does not provide an operation that is needed. -/
  | notProvided
  /-- An element was taken from an empty worklist. -/
  | emptyWorkList
  /-- Something was looked up that is not there. -/
  | notFound (key : String)
  /-- A statement was looked up at a position that the method does not have. -/
  | noSuchPosition
  /-- An edge comes from a node that has no facts. -/
  | sourceFactMissing
  /-- A node is visited that has no facts. -/
  | nodeFactMissing
  /-- An edge between methods carries no call of which the arguments or the result could be
  taken. -/
  | callMissing (part : String)
  /-- A thing of the given kind was asked for what such things do not offer. -/
  | misused (kind : String) (want : Want)
  /-- A solver used up the number of visits it was given. -/
  | visitLimit
  /-- The pointer analysis used up the number of steps it was given. -/
  | stepLimit
deriving DecidableEq

namespace Fault

/-- The article or negation in front of "base variable". -/
def baseWord (field : Field) : String := if field.isStatic then "no" else "a"

/-- A depth in quotes, of which at most 200 characters are shown. -/
def quotedDepth (depth : String) : String :=
  String.ofList (("'" ++ depth ++ "'").toList.take 200)

/-- The number of digits up to which depths are read and written. -/
def depthLimit : Nat := 4300

/-- The messages about too many digits, with what is known of their number. -/
def limitMessage (known : String) : String :=
  "Exceeds the limit (" ++ toString depthLimit ++ " digits) for integer string conversion" ++ known
    ++ "; use sys.set_int_max_str_digits() to increase the limit"

def wantMessage (kind : String) : Want → String
  | .part name => "'" ++ kind ++ "' object has no attribute '" ++ name ++ "'"
  | .elements => "'" ++ kind ++ "' object is not iterable"
  | .membership => "argument of type '" ++ kind ++ "' is not iterable"
  | .size => "object of type '" ++ kind ++ "' has no len()"

/-- The message when a part of something is wanted and nothing is there. -/
def nothingMessage (part : String) : String := wantMessage "NoneType" (.part part)

/-- The message of a fault. -/
def message : Fault → String
  | classDefinedTwice name => "Class " ++ name ++ " is defined twice"
  | loadBase field => "Load of " ++ field.text ++ " needs " ++ baseWord field ++ " base variable"
  | storeBase field => "Store to " ++ field.text ++ " needs " ++ baseWord field ++ " base variable"
  | targetMissing caller => "Call in " ++ caller.signature ++ " has no method reference"
  | receiverUnexpected target => "Static call to " ++ target.text ++ " has a receiver"
  | receiverMissing kind target => kind.title ++ " call to " ++ target.text ++ " has no receiver"
  | noEntry => "No entry method is provided."
  | rulesMissing kinds =>
      "No processor for statement kinds: " ++ String.intercalate ", " (kinds.map StmtKind.text)
  | unknownStatement text => "No processor for statement: " ++ text
  | textMissing => "maximum recursion depth exceeded"
  | unknownSelector name => "Unknown context selector: " ++ name
  | depthNotDecimal depth => "invalid literal for int() with base 10: " ++ quotedDepth depth
  | depthTooLong digits => limitMessage (": value has " ++ toString digits ++ " digits")
  | depthUnwritable => limitMessage ""
  | namelessSelector => wantMessage "ContextSelector" (.part "name")
  | operandMissing => nothingMessage "type"
  | unknownEdgeKind kind => "Unknown ICFG edge kind " ++ kind
  | notProvided => ""
  | emptyWorkList => "pop from an empty deque"
  | notFound key => key
  | noSuchPosition => "list index out of range"
  | sourceFactMissing => nothingMessage "copy"
  | nodeFactMissing => nothingMessage "copyFrom"
  | callMissing part => nothingMessage part
  | misused kind want => wantMessage kind want
  | visitLimit => ""
  | stepLimit => ""

end Fault

/-- The fault of a statement that there is no rule for. It shows the statement's text, and so a
statement without text gives another fault. -/
def Stmt.refusal (s : Stmt) : Fault :=
  match s.text? with
  | some text => .unknownStatement text
  | none => .textMissing

/-- A value that has to be there. -/
def orFault {α : Type} (x : Option α) (f : Fault) : Except Fault α :=
  match x with
  | some a => .ok a
  | none => .error f

end StaticAnalysis
