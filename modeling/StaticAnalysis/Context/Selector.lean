import StaticAnalysis.Context.Basic
import StaticAnalysis.Text.Blank
import StaticAnalysis.Text.Case
import StaticAnalysis.Text.Digit

/-!
# Context selectors

A selector decides under which context a callee is analysed and under which one an object is
allocated. Contexts of objects are one element shorter than those of methods.

* `callString k` — the last `k` call sites.
* `objectChain k` — the receiver object behind the objects it was allocated under.
* `typeChain k` — the same with the class in whose code an object was allocated.
* `insensitive` — one context for all.

`Selector.parse` reads the name of a selector, `Selector.name` writes it.
-/

namespace StaticAnalysis

/-- The depth of contexts that a selector has when its name gives none. -/
def defaultDepth : Nat := 2

/-- A choice of contexts. -/
inductive Selector where
  | insensitive
  | callString (depth : Int)
  | objectChain (depth : Int)
  | typeChain (depth : Int)
  /-- A selector that leaves the contexts of callees open. It has no name. -/
  | undecided (depth : Int)
deriving DecidableEq

namespace Selector

def depth : Selector → Int
  | insensitive => 0
  | callString k | objectChain k | typeChain k | undecided k => k

/-- The context of the callee when `site` is run under `context` on a receiver object. Calls
without receiver object keep the context of the caller, unless contexts are made of call sites. -/
def calleeContext (sel : Selector) (context : Context) (site : Stmt) (receiver : Option HeapObj) :
    Option Context :=
  match sel with
  | insensitive => some []
  | callString k => some (lastK (context ++ [.site site]) k)
  | objectChain k =>
    match receiver with
    | none => some context
    | some o => some (lastK (o.context ++ [.object o.alloc]) k)
  | typeChain k =>
    match receiver with
    | none => some context
    | some o => some (lastK (o.context ++ [.cls o.alloc.site.method.owner]) k)
  | undecided _ => none

/-- The context of an object that is allocated in a method run under `context`. -/
def heapContext (sel : Selector) (context : Context) : Context :=
  match sel with
  | insensitive => []
  | callString k | objectChain k | typeChain k | undecided k => lastK context (k - 1)

/-- A depth in decimal digits, if there are not too many. -/
def writeDepth (k : Int) : Except Fault String :=
  if Fault.depthLimit < (toString k.natAbs).length then .error .depthUnwritable
  else .ok (toString k)

/-- The name of a selector. -/
def name : Selector → Except Fault String
  | insensitive => .ok "ci"
  | callString k => (writeDepth k).map (· ++ "-call")
  | objectChain k => (writeDepth k).map (· ++ "-obj")
  | typeChain k => (writeDepth k).map (· ++ "-type")
  | undecided k => (writeDepth k).bind fun _ => .error .namelessSelector

/-! ### Names of selectors -/

/-- The other names of the insensitive selector are accepted, too. -/
def insensitiveNames : List String := ["ci", "insensitive", "context-insensitive"]

/-- The selectors that have a depth, by the last part of their names. -/
def ofKind? (kind : String) : Option (Int → Selector) :=
  match kind with
  | "call" => some callString
  | "obj" => some objectChain
  | "type" => some typeChain
  | _ => none

/-- Splits a text at the last occurrence of a character. -/
def splitLast (c : Char) (cs : List Char) : Option (List Char × List Char) :=
  match cs.reverse.dropWhile (· != c) with
  | [] => none
  | _ :: before => some (before.reverse, (cs.reverse.takeWhile (· != c)).reverse)

/-- The number that a text of digits writes. Too many decimal digits are noticed first, then digits
that are no decimals. -/
def readDepth (digits : List Char) : Except Fault Nat :=
  let run := Text.decimalRun digits
  if Fault.depthLimit < run then .error (.depthTooLong run)
  else orFault (Text.readDecimal? digits) (.depthNotDecimal (String.ofList digits))

/-- The selector of a depth and a kind. The depth is positive and made of decimal digits. -/
def ofParts (name depth kind : List Char) : Except Fault Selector := do
  let unknown := Fault.unknownSelector (String.ofList name)
  let make ← orFault (ofKind? (String.ofList kind)) unknown
  if Text.isDigits depth then
    match ← readDepth depth with
    | 0 => .error unknown
    | k => .ok (make k)
  else .error unknown

/-- The selector of a name, which is `ci` or a depth and a kind such as `2-obj`. Case and blanks
around the name do not matter, and the depth may be left out. -/
def parse (written : String) : Except Fault Selector :=
  let name := Text.lower (Text.trim written.toList)
  if String.ofList name ∈ insensitiveNames then .ok insensitive
  else match splitLast '-' name with
    | some (depth, kind) => ofParts name depth kind
    | none =>
      match ofKind? (String.ofList name) with
      | some make => .ok (make defaultDepth)
      | none => .error (.unknownSelector (String.ofList name))

end Selector

end StaticAnalysis
