import StaticAnalysis.Code.Base

/-!
# Contexts, objects and pointers

The things that the pointer analysis speaks of.

* `Context` — a sequence of elements, the newest last. `lastK` keeps the newest ones.
* `HeapObj` — an abstract object under the context in which it was allocated.
* `Pointer` — what can point to objects: a variable under a context, a static field, a field of an
  object, or the elements of an array object.
-/

namespace StaticAnalysis

/-- The last `k` elements of a list; none if `k` is not positive. -/
def lastK {α : Type} (xs : List α) (k : Int) : List α :=
  if k ≤ 0 then [] else xs.drop (xs.length - k.toNat)

theorem length_lastK {α : Type} (xs : List α) (k : Int) :
    (lastK xs k).length = min xs.length k.toNat := by
  unfold lastK
  split
  · have : k.toNat = 0 := by omega
    simp [this]
  · simp only [List.length_drop]
    omega

/-- An element of a context. -/
inductive Element where
  /-- A name without further meaning. -/
  | label (name : String)
  /-- A statement, as a rule a call. -/
  | site (s : Stmt)
  /-- An abstract object. -/
  | object (a : Alloc)
  /-- A class. -/
  | cls (c : Class)
deriving DecidableEq

/-- Whether two elements are the same. A shared value is noticed at once. -/
instance Element.decEq : DecidableEq Element := fun e f =>
  withPtrEqDecEq e f fun _ => instDecidableEqElement e f

namespace Element

/-- A call is written as its position in its method, anything else by its own text. -/
def text : Element → String
  | label name => name
  | site s =>
    if s.isCall then s.method.qualifiedName ++ "-" ++ toString s.index else s.text
  | object a => a.text
  | cls c => c.name

/-- The description of an element in reports. -/
def describe : Element → String
  | label name => name
  | site s => Stmt.described s.text
  | object a => a.text
  | cls c => c.describe

end Element

/-- The circumstances of a call or an allocation, the newest element last. -/
abbrev Context := List Element

namespace Context

/-- Whether two contexts have the same elements, one by one. -/
def same : Context → Context → Bool
  | [], [] => true
  | e :: c, f :: d => if e = f then same c d else false
  | _, _ => false

theorem same_iff {c d : Context} : same c d = true ↔ c = d := by
  induction c generalizing d with
  | nil => cases d <;> simp [same]
  | cons e c ih =>
    cases d with
    | nil => simp [same]
    | cons f d => by_cases h : e = f <;> simp [same, h, ih]

instance : DecidableEq Context := fun _ _ => decidable_of_iff _ same_iff

def text (c : Context) : String := "[" ++ String.intercalate ", " (c.map Element.text) ++ "]"

/-- The description of a context in reports: a comma follows a single element. -/
def describe (c : Context) : String :=
  match c with
  | [e] => "(" ++ e.describe ++ ",)"
  | _ => "(" ++ String.intercalate ", " (c.map Element.describe) ++ ")"

end Context

/-- A method under a context. -/
abbrev CtxMethod := Context × Method

/-- A statement under a context. -/
abbrev CtxStmt := Context × Stmt

/-- An abstract object under the context in which it was allocated. -/
structure HeapObj where
  context : Context
  alloc : Alloc

/-- Whether two objects are the same. A shared value is noticed at once, and the allocations are
compared before the contexts. -/
instance HeapObj.decEq : DecidableEq HeapObj := fun o q =>
  withPtrEqDecEq o q fun _ =>
    match o, q with
    | ⟨c, a⟩, ⟨d, b⟩ =>
      if h : a = b then
        if hc : c = d then isTrue (by rw [h, hc]) else isFalse (by simp [hc])
      else isFalse (by simp [h])

namespace HeapObj

def text (o : HeapObj) : String := Context.text o.context ++ o.alloc.text

end HeapObj

/-- What can point to objects. -/
inductive Pointer where
  /-- A variable under a context, or the nameless one of all operands left open. -/
  | var (context : Context) (v : Operand)
  /-- A static field. -/
  | static (field : Field)
  /-- A field of an object. -/
  | member (base : HeapObj) (field : Field)
  /-- The elements of an array object. -/
  | element (base : HeapObj)
deriving DecidableEq

/-- Whether two pointers are the same. A shared value is noticed at once, and variables are
compared before their contexts. -/
instance Pointer.decEq : DecidableEq Pointer := fun p q =>
  withPtrEqDecEq p q fun _ =>
    match p, q with
    | .var c v, .var d w =>
      if h : v = w then
        if hc : c = d then isTrue (by rw [h, hc]) else isFalse (by simp [hc])
      else isFalse (by simp [h])
    | p, q => instDecidableEqPointer p q

namespace Pointer

/-- The kind of a pointer in reports. -/
def kindText : Pointer → String
  | var _ _ => "var"
  | static _ => "static-field"
  | member _ _ => "instance-field"
  | element _ => "array-index"

def text : Pointer → String
  | var context v => Context.text context ++ Operand.text v
  | static field => field.text
  | member base field => base.text ++ "." ++ field.name
  | element base => base.text ++ "[*]"

/-- The description of a pointer in reports. -/
def describe (p : Pointer) : String := "Pointer: " ++ p.text

/-- The operand that the pointer stands for. -/
def operand? : Pointer → Option Operand
  | var _ v => some v
  | _ => none

def isVar (p : Pointer) : Bool := p.operand?.isSome

end Pointer

end StaticAnalysis
