import StaticAnalysis.Collection.FinSet
import StaticAnalysis.Dataflow.Solver

/-!
# Problems on sets

Problems whose facts are sets and whose transfers take some elements out and put others in.

* `Rule` — what is taken out (`kill`) and put in (`gen`), in this order.
* `genKill` — the problem with a rule for every node.
* `liveVariables` — which operands are read later on.
* `reachingDefinitions` — which statements may have written the value of a variable.
-/

namespace StaticAnalysis.Dataflow

/-- Which elements are to be taken out of a set, and which ones put in. -/
structure Rule (α : Type) where
  kill : α → Bool := fun _ => false
  gen : FinSet α := ∅

namespace Rule

variable {α : Type} [DecidableEq α]

/-- Takes elements out and then puts elements in. -/
def apply (r : Rule α) (s : FinSet α) : FinSet α := (s.filter fun a => !r.kill a).union r.gen

@[simp] theorem mem_apply {r : Rule α} {s : FinSet α} {a : α} :
    a ∈ r.apply s ↔ (a ∈ s ∧ r.kill a = false) ∨ a ∈ r.gen := by
  simp [apply]

/-- The rule of two sets. -/
def ofSets (kill gen : FinSet α) : Rule α := ⟨kill.contains, gen⟩

end Rule

/-- How facts from several predecessors are put together. -/
inductive Meet where
  /-- What holds on some path. -/
  | union
  /-- What holds on all paths. -/
  | inter
deriving DecidableEq

def Meet.apply {α : Type} [DecidableEq α] : Meet → FinSet α → FinSet α → FinSet α
  | union => FinSet.union
  | inter => FinSet.inter

/-- The problem in which every node has a rule. -/
def genKill {N α : Type} [DecidableEq α] (direction : Direction) (meet : Meet)
    (boundary initial : FinSet α) (rule : N → Rule α) : Problem N (FinSet α) where
  direction := direction
  boundary := boundary
  initial := initial
  meet := meet.apply
  transfer n s := (rule n).apply s

/-- A statement takes out the variable that it writes and puts in the operands that it reads. An
operand left open is never written. -/
def liveRule (n : Node) : Rule Operand :=
  match n.stmt? with
  | some s => ⟨fun v => v.isSome && decide (s.defines? = v), .ofList s.uses⟩
  | none => {}

/-- Live variables: those that are read before they are written again. -/
def liveVariables : Problem Node (FinSet Operand) := genKill .backward .union ∅ ∅ liveRule

/-- A statement that writes a variable takes out all statements that write it and puts itself
in. -/
def definitionRule (n : Node) : Rule Stmt :=
  match n.stmt? with
  | some s =>
    if s.defines?.isSome then ⟨fun d => decide (d.defines? = s.defines?), .ofList [s]⟩ else {}
  | none => {}

/-- Reaching definitions: the statements whose written value may still be there. -/
def reachingDefinitions : Problem Node (FinSet Stmt) := genKill .forward .union ∅ ∅ definitionRule

end StaticAnalysis.Dataflow
