import StaticAnalysis.CallGraph.Report
import StaticAnalysis.PointsTo.Result

/-!
# Reports on the pointer analysis

`State.summary` gives the points-to sets and the call graph of a finished analysis, `State.details`
everything else that can be asked of it. Rows stand in the order of discovery if that does not
depend on chance (`State.isForced`), and sorted otherwise.
-/

namespace StaticAnalysis.PointsTo

/-- The texts of objects in ascending order. -/
def objectTexts (objs : List HeapObj) : List String := sortTexts (objs.map HeapObj.text)

namespace State

variable (st : State)

/-- Texts in the order of discovery, if that is forced. -/
def found {α : Type} (f : α → String) (xs : List α) : Report :=
  .texts (arrangeTexts st.isForced (xs.map f))

/-- The points-to sets and the call graph, under the name of the selector. -/
def summary (rules : Rules) : Except Fault (List (String × Report)) :=
  let pts := st.pts.entries.map fun e => (e.1.kindText, e.1.text, objectTexts e.2)
  rules.selector.name.map fun name =>
    [("ordered", .flag st.isForced), ("selector", .text name),
      ("pts", .pairRows (arrangeRows comparePairRows st.isForced pts)),
      ("cs", st.graph.report (.contextual rules.code) st.isForced)]

/-- The flow edges, sorted. -/
def flowRows : List (List String) :=
  sortBy compareTextLists (st.flowEdges.map fun e => [e.1.text, e.2.text])

/-- What arrived at pointers; only if the order is forced. -/
def trace : Report :=
  if st.isForced then
    .each st.arrivals fun a =>
      .list [.text a.1.text, .texts (objectTexts a.2.1), .texts (objectTexts a.2.2)]
  else .none

/-- A variable, its objects, its pointers, and how many objects it has under the empty context. -/
def varRow (v : Var) : Report :=
  .list
    [.text v.text, .sorted Alloc.text (st.varObjects v),
      st.found Pointer.text (st.pool.pointersOf v), .count (st.lookup (.var [] (some v))).length]

/-- The fields of objects that point to something. -/
def heapRows (fields : List Field) : List PairRow :=
  sortBy comparePairRows (st.pool.objects.flatMap fun o => fields.filterMap fun f =>
    match st.lookup (.member o f) with
    | [] => none
    | objs => some (o.text, f.text, objectTexts objs))

/-- The arrays whose elements point to something. -/
def arrayRows : List ListRow :=
  sortBy compareListRows (st.pool.objects.filterMap fun o =>
    match st.lookup (.element o) with
    | [] => none
    | objs => some (o.text, objectTexts objs))

/-- Everything else, for the variables of the given methods and the given fields. -/
def details (rules : Rules) (methods : List Method) (fields : List Field) :
    List (String × Report) :=
  [("trace", st.trace), ("ci", st.callGraph.report (.plain rules.code) st.isForced),
    ("objs", st.found HeapObj.text st.pool.objects), ("flow", .each st.flowRows .texts),
    ("flowLen", .count st.flowSize), ("pointers", st.found Pointer.describe st.pool.pointers),
    ("vars", .each (methods.flatMap fun m => (rules.code.body m).vars) st.varRow),
    ("static", .each fields fun f => .listRow (f.text, objectTexts (st.lookup (.static f)))),
    ("heap", .pairRows (st.heapRows fields)), ("arrays", .listRows st.arrayRows)]

end State

end StaticAnalysis.PointsTo
