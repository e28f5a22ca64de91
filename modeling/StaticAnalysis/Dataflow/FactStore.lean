import StaticAnalysis.Code.Fault
import StaticAnalysis.Collection.FinSet
import StaticAnalysis.Collection.Table
import StaticAnalysis.Report

/-!
# Stores of facts

A `FactStore` holds facts in cells, and names for some of them. A dataflow result refers to cells,
so that it shows what becomes of a fact after the fact was put into it.

* `Value` — a set or a map of atoms.
* `FactStore.bind` — puts a new fact into a new cell and names it.
* `FactStore.read`, `FactStore.write` — the fact in the cell of a name.
* `FactStore.Command`, `FactStore.perform` — work on a store step by step. A command that asks a
  fact for what only the other sort offers is a fault and changes nothing.
-/

namespace StaticAnalysis.Dataflow

/-- An element of a fact. -/
inductive Atom where
  | int (n : Int)
  | text (s : String)
deriving DecidableEq

def Atom.render : Atom → String
  | int n => toString n
  | text s => s

def Atom.report : Atom → Report
  | int n => .int n
  | text s => .text s

/-- The text of the value of a key; a key may have none. -/
def renderValue : Option Atom → String
  | some a => a.render
  | none => "None"

/-- A fact: a set of atoms, or a map from atoms. -/
inductive Value where
  | set (s : FinSet Atom)
  | map (t : Table Atom (Option Atom))

namespace Value

/-- The texts of the elements or pairs, sorted. -/
def texts : Value → List String
  | set s => s.texts Atom.render
  | map t => sortTexts (t.entries.map fun e => e.1.render ++ "=" ++ renderValue e.2)

def render (v : Value) : String := "\x7b" ++ String.intercalate ", " v.texts ++ "\x7d"

def size : Value → Nat
  | set s => s.size
  | map t => t.size

/-- Facts of one sort are the same if they have the same elements, in whatever order. -/
def same : Value → Value → Bool
  | set s, set t => decide (s = t)
  | map s, map t => s.sameAs t
  | _, _ => false

/-- The fact itself, unless it is the same already; the first part tells whether it changed. -/
def replaceBy (old new : Value) : Bool × Value :=
  if same old new then (false, old) else (true, new)

/-- The name of the sort of a fact in messages. -/
def kindText : Value → String
  | set _ => "SetFact"
  | map _ => "MapFact"

/-- The elements of a set, for what only sets offer. -/
def asSet (want : Want) : Value → Except Fault (FinSet Atom)
  | set s => .ok s
  | v => .error (.misused v.kindText want)

/-- The pairs of a map, for what only maps offer. -/
def asMap (want : Want) : Value → Except Fault (Table Atom (Option Atom))
  | map t => .ok t
  | v => .error (.misused v.kindText want)

/-- Adds an element to a set. The first part tells whether it is new. -/
def addTo (s : FinSet Atom) (a : Atom) : Bool × Value :=
  if a ∈ s then (false, set s) else (true, set (s.insert a))

/-- Gives a key of a map a value. The first part tells whether anything changed. -/
def updateIn (t : Table Atom (Option Atom)) (k : Atom) (a : Option Atom) : Bool × Value :=
  if t.get? k = some a then (false, map t) else (true, map (t.set k a))

/-- Takes an element or a key out. The first part tells whether it was there. -/
def remove (v : Value) (a : Atom) : Bool × Value :=
  match v with
  | set s => if a ∈ s then (true, set (s.erase a)) else (false, v)
  | map t => if t.contains a then (true, map (t.erase a)) else (false, v)

/-- Whether a set has an element or a map a key. -/
def has : Value → Atom → Bool
  | set s, a => s.contains a
  | map t, a => t.contains a

end Value

/-- The facts of the nodes, given by the cells in which they are. -/
structure CellResult where
  before : Table Atom Nat := {}
  after : Table Atom Nat := {}

/-- The result with a cell in front of a node, or behind it. -/
def CellResult.place (r : CellResult) (behind : Bool) (node : Atom) (cell : Nat) : CellResult :=
  if behind then { r with after := r.after.set node cell }
  else { r with before := r.before.set node cell }

/-- What a name stands for. -/
inductive StoreEntry where
  /-- The fact in a cell. -/
  | fact (cell : Nat)
  | result (r : CellResult)

/-- Facts in cells, and names for cells and results. -/
structure FactStore where
  cells : List Value := []
  names : Table String StoreEntry := {}

namespace FactStore

variable (st : FactStore)

/-- The name of the sort of a result in messages. -/
def resultKind : String := "DataflowResult"

/-- Puts a fact into a new cell and names the cell. -/
def bind (name : String) (v : Value) : FactStore :=
  { st with cells := st.cells ++ [v], names := st.names.set name (.fact st.cells.length) }

def entry (name : String) : Except Fault StoreEntry :=
  orFault (st.names.get? name) (.notFound name)

/-- The fact under a name, for what is wanted of it. -/
def read (name : String) (want : Want) : Except Fault Value := do
  match ← st.entry name with
  | .fact i => orFault st.cells[i]? (.notFound name)
  | .result _ => .error (.misused resultKind want)

def readSet (name : String) (want : Want) : Except Fault (FinSet Atom) := do
  (← st.read name want).asSet want

def readMap (name : String) (want : Want) : Except Fault (Table Atom (Option Atom)) := do
  (← st.read name want).asMap want

/-- The result under a name, for what is wanted of it. -/
def readResult (name : String) (want : Want) : Except Fault CellResult := do
  match ← st.entry name with
  | .result r => .ok r
  | .fact i => .error (.misused ((st.cells[i]?.map Value.kindText).getD "") want)

/-- Changes the fact in the cell of a name. -/
def write (name : String) (v : Value) : FactStore :=
  match st.names.get? name with
  | some (.fact i) => { st with cells := st.cells.set i v }
  | _ => st

/-- Names a new result. -/
def newResult (name : String) : FactStore := { st with names := st.names.set name (.result {}) }

/-- Puts the cell of a fact in front of a node, or behind it. -/
def place (result : String) (behind : Bool) (node : Atom) (fact : String) :
    Except Fault FactStore := do
  let r ← st.readResult result (.part (if behind then "setOutFact" else "setInFact"))
  match ← st.entry fact with
  | .fact i => pure { st with names := st.names.set result (.result (r.place behind node i)) }
  | .result _ => pure st

/-- The fact in front of a node, or behind it, as it is now. -/
def factAt (result : String) (behind : Bool) (node : Atom) : Except Fault (Option Value) := do
  let r ← st.readResult result (.part (if behind then "getOutFact" else "getInFact"))
  pure ((if behind then r.after.get? node else r.before.get? node).bind fun i => st.cells[i]?)

/-- Whether two names stand for the same: facts with the same elements, or one result. -/
def same (left right : String) : Except Fault Bool := do
  match ← st.entry left, ← st.entry right with
  | .fact i, .fact j =>
    pure ((st.cells[i]?).any fun v => (st.cells[j]?).any fun w => v.same w)
  | .result _, .result _ => pure (left == right)
  | _, _ => pure false

/-- A step of work on a store. Commands name facts; those that make a fact give it a name. -/
inductive Command where
  | make (name : String) (v : Value)
  | union (name left right : String)
  | copy (name source : String)
  | newResult (name : String)
  | same (left right : String)
  | place (result : String) (behind : Bool) (node : Atom) (fact : String)
  | factAt (result : String) (behind : Bool) (node : Atom)
  | add (name : String) (a : Atom)
  | remove (name : String) (a : Atom)
  | update (name : String) (key : Atom) (value : Option Atom)
  | copyFrom (name source : String)
  | has (name : String) (a : Atom)
  | get (name : String) (key : Atom)
  | items (name : String)
  | texts (name : String)
  | render (name : String)

/-- Makes a fact and shows it. -/
def made (name : String) (v : Value) : FactStore × Report := (st.bind name v, .text v.render)

/-- Leaves a fact behind and shows an answer together with it. -/
def left (name : String) (answer : Report) (v : Value) : FactStore × Report :=
  (st.write name v, .list [answer, .count v.size, .text v.render])

/-- Carries out a command. -/
def perform : Command → Except Fault (FactStore × Report)
  | .make name v => .ok (st.made name v)
  | .union name x y => do
    let s ← st.readSet x (.part "union")
    let t ← st.readSet y (.part "elements")
    pure (st.made name (.set (s.union t)))
  | .copy name x => do pure (st.made name (← st.read x (.part "copy")))
  | .newResult name => .ok (st.newResult name, .none)
  | .same x y => do pure (st, .flag (← st.same x y))
  | .place result behind node fact => do pure (← st.place result behind node fact, .none)
  | .factAt result behind node => do
    pure (st, .optionalText (← st.factAt result behind node) Value.render)
  | .add name a => do
    let (new, v) := Value.addTo (← st.readSet name (.part "add")) a
    pure (st.left name (.flag new) v)
  | .remove name a => do
    let (new, v) := (← st.read name (.part "remove")).remove a
    pure (st.left name (.flag new) v)
  | .update name k a => do
    let (new, v) := Value.updateIn (← st.readMap name (.part "update")) k a
    pure (st.left name (.flag new) v)
  | .copyFrom name source => do
    let old ← st.read name (.part "copyFrom")
    let new ← match old with
      | .set _ => .set <$> st.readSet source (.part "elements")
      | .map _ => .map <$> st.readMap source (.part "map")
    let (changed, v) := old.replaceBy new
    pure (st.left name (.flag changed) v)
  | .has name a => do
    let v ← st.read name .membership
    pure (st.left name (.flag (v.has a)) v)
  | .get name k => do
    let t ← st.readMap name (.part "get")
    pure (st.left name (.optional (t.get? k).join Atom.report) (.map t))
  | .items name => do
    let t ← st.readMap name (.part "items")
    pure (st.left name (.each t.entries fun e =>
      .list [e.1.report, .optional e.2 Atom.report]) (.map t))
  | .texts name => do
    let s ← st.readSet name .elements
    pure (st.left name (.texts (Value.set s).texts) (.set s))
  | .render name => do
    let v ← st.read name .size
    pure (st.left name (.text v.render) v)

end FactStore

end StaticAnalysis.Dataflow
