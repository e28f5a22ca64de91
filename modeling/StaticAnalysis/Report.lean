import StaticAnalysis.Text.Row

/-!
# Reports

A `Report` is what the library tells about its results: texts, numbers and truth values, in lists
and records.
-/

namespace StaticAnalysis

/-- A piece of a report. -/
inductive Report where
  | none
  | flag (b : Bool)
  | int (n : Int)
  | text (s : String)
  | list (rs : List Report)
  | record (fields : List (String × Report))

namespace Report

def count (n : Nat) : Report := int n

def texts (xs : List String) : Report := list (xs.map text)

/-- One piece for each element. -/
def each {α : Type} (xs : List α) (f : α → Report) : Report := list (xs.map f)

/-- A piece for a value that may be missing. -/
def optional {α : Type} (x : Option α) (f : α → Report) : Report :=
  match x with
  | some a => f a
  | Option.none => none

def optionalText {α : Type} (x : Option α) (f : α → String) : Report :=
  optional x fun a => text (f a)

def listRow (r : ListRow) : Report := list [text r.1, texts r.2]

def pairRow (r : PairRow) : Report := list [text r.1, text r.2.1, texts r.2.2]

def listRows (rs : List ListRow) : Report := each rs listRow

def pairRows (rs : List PairRow) : Report := each rs pairRow

/-- The texts of things in ascending order. -/
def sorted {α : Type} (f : α → String) (xs : List α) : Report := texts (sortTexts (xs.map f))

end Report

end StaticAnalysis
