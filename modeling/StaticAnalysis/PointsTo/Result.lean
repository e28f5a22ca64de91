import StaticAnalysis.Log
import StaticAnalysis.PointsTo.Machine

/-!
# Results of the pointer analysis

What can be asked of a state in which the analysis has come to rest. Asking for a pointer that was
never mentioned gives the empty set.

* `State.varObjects` — the abstract objects of a variable under all contexts.
* `State.isForced` — whether every set that the analysis went through had at most one element, so
  that nothing depends on the orders chosen.
* `State.log`, `State.progress` — what the analysis reports of its run.
-/

namespace StaticAnalysis.PointsTo

namespace State

variable (st : State)

/-- The objects of a pointer, if it was mentioned. -/
def lookup (p : Pointer) : List HeapObj :=
  match st.pool.pointerId? p with
  | some _ => st.objectsOf p
  | none => []

/-- The abstract objects of a variable, its contexts and theirs forgotten. -/
def varObjects (v : Operand) : List Alloc :=
  distinct ((st.pool.pointersOf v).flatMap fun p => (st.objectsOf p).map HeapObj.alloc)

/-- All flow edges. -/
def flowEdges : List (Pointer × Pointer) :=
  st.flow.entries.flatMap fun e => e.2.map fun target => (e.1, target)

/-- The number of flow edges. -/
def flowSize : Nat := st.flowEdges.length

/-- The call graph without contexts. -/
def callGraph : CallGraph Stmt Method := st.graph.dropContexts

end State

namespace Event

/-- Whether a set with several elements was gone through. -/
def isChoice : Event → Bool
  | arrived _ _ delta successors => !delta.isEmpty && (delta.length > 1 || successors > 1)
  | awaited _ objs => objs > 1
  | _ => false

/-- The line of the log that an event gives. -/
def log? : Event → Option LogLine
  | reached m =>
    some ⟨.debug, "New reachable method: " ++ m.2.signature ++ " under " ++ Context.describe m.1⟩
  | noTarget s => some ⟨.debug, "No target for " ++ s.text⟩
  | noTargetOn s o => some ⟨.debug, "No target for " ++ s.text ++ " on " ++ o.text⟩
  | skipped s => some ⟨.debug, "Skip dynamic call: " ++ s.text⟩
  | settled reachable edges pointers objects =>
    some ⟨.info, "PTA reaches fixpoint: " ++ toString reachable ++ " reachable methods, "
      ++ toString edges ++ " call edges, " ++ toString pointers ++ " pointers, "
      ++ toString objects ++ " objects"⟩
  | _ => none

/-- The progress message that an event gives. -/
def progress? : Event → Option String
  | turn pending =>
    some ("PTA worklist remains " ++ toString pending ++ " to process.                \r")
  | _ => none

end Event

namespace State

variable (st : State)

/-- Whether no set with several elements was gone through. -/
def isForced : Bool := st.history.all fun e => !e.isChoice

/-- The log of the run, oldest line first. -/
def log : List LogLine := st.history.reverse.filterMap Event.log?

/-- The progress messages of the run. -/
def progress : String := String.join (st.history.reverse.filterMap Event.progress?)

/-- The arrivals of objects at pointers, in order: the pointer, what arrived and what was new. -/
def arrivals : List (Pointer × List HeapObj × List HeapObj) :=
  st.history.reverse.filterMap fun e =>
    match e with
    | .arrived p objs delta _ => some (p, objs, delta)
    | _ => none

end State

end StaticAnalysis.PointsTo
