import StaticAnalysis.Dataflow.GenKill
import StaticAnalysis.Dataflow.InterSolver

/-!
# Labels across methods

A problem on sets of labels with a rule for calls, one for all other nodes, one for each node and
one for each kind of edge between methods.
-/

namespace StaticAnalysis.Dataflow

/-- The rules of a problem on labels. -/
structure LabelRules (N : Type) where
  meet : Meet := .union
  boundary : FinSet String := ∅
  initial : FinSet String := ∅
  callNode : Rule String := {}
  otherNode : Rule String := {}
  node : N → Rule String := fun _ => {}
  callToReturnEdge : Rule String := {}
  callEdge : Rule String := {}
  returnEdge : Rule String := {}

/-- The policy of rules on labels: the rule for the sort of a node comes before its own. -/
def LabelRules.policy {N M : Type} (r : LabelRules N) : SplitPolicy N M (FinSet String) where
  boundary _ := .ok r.boundary
  initial := .ok r.initial
  meet x y := .ok (r.meet.apply x y)
  callNode n x := .ok ((r.node n).apply (r.callNode.apply x))
  otherNode n x := .ok ((r.node n).apply (r.otherNode.apply x))
  callToReturnEdge _ := .ok r.callToReturnEdge.apply
  callEdge _ := .ok r.callEdge.apply
  returnEdge _ := .ok r.returnEdge.apply

end StaticAnalysis.Dataflow
