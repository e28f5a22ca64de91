import StaticAnalysis.CallGraph.Contextual
import StaticAnalysis.CallGraph.HierarchyAnalysis
import StaticAnalysis.Report

/-!
# Reports on call graphs

* `CallGraph.report` — everything that can be asked of a call graph.
* `CallGraph.Command`, `CallGraph.perform` — a call graph built and asked step by step.
* `HierarchyAnalysis.State.report` — what the hierarchy says about a program.
-/

namespace StaticAnalysis

/-- The text of an edge. -/
def CallEdge.describe (e : CallEdge Stmt Method) : String :=
  "[" ++ e.kind.label ++ "]" ++ e.site.text ++ " -> " ++ e.callee.signature

namespace CallGraph

/-- A step in the work on a call graph. -/
inductive Command (S M : Type) where
  | addEntry (m : M)
  | addReachable (m : M)
  | addEdge (e : CallEdge S M)
  | isReachable (m : M)
  | edgesOutOf (s : S)
  | edgesInto (m : M)
  | calleesOf (s : S)
  | callersOf (m : M)
  | calleesOfMethod (m : M)
  | container (s : S)
  | sites (m : M)
  | behind (s : S) (m : M)
  | fold
  | report
  | reportPlain

variable {S M : Type} [DecidableEq S] [DecidableEq M] (layout : Layout S M)

/-- An edge as a row: kind, site and callee. -/
def edgeRow (e : CallEdge S M) : List String :=
  [e.kind.label, layout.siteText e.site, layout.methodText e.callee]

/-- The pieces of a report on a graph, with rows in the order of discovery or sorted. -/
def pieces (asFound : Bool) (g : CallGraph S M) : List (String × Report) :=
  let callees := g.reachable.map fun m =>
    (layout.methodText m, sortTexts ((g.calleesOfMethod layout m).map layout.methodText))
  let callers := g.reachable.map fun m =>
    (layout.methodText m, sortTexts ((g.callersOf m).map layout.siteText))
  let edges := arrangeRows compareTextLists asFound (g.edges.map (edgeRow layout))
  [("entries", .sorted layout.methodText g.entries),
    ("reachable", .texts (arrangeTexts asFound (g.reachable.map layout.methodText))),
    ("edges", .each edges .texts),
    ("export", .listRows (arrangeRows compareListRows asFound (g.exported layout).entries)),
    ("callees", .listRows (arrangeRows compareListRows asFound callees)),
    ("callers", .listRows (arrangeRows compareListRows asFound callers)),
    ("len", .count g.size)]

def report (asFound : Bool) (g : CallGraph S M) : Report := .record (g.pieces layout asFound)

/-- Carries out a step. `plain` reports on the graph without contexts. -/
def perform (plain : CallGraph S M → Except Fault Report) (g : CallGraph S M) :
    Command S M → Except Fault (CallGraph S M × Report)
  | .addEntry m => .ok (g.addEntry m, .none)
  | .addReachable m => let (new, g) := g.addReachable m; .ok (g, .flag new)
  | .addEdge e => let (new, g) := g.addEdge e; .ok (g, .flag new)
  | .isReachable m => .ok (g, .flag (g.isReachable m))
  | .edgesOutOf s => .ok (g, .each (g.edgesOutOf s) fun e => .texts (edgeRow layout e))
  | .edgesInto m => .ok (g, .each (g.edgesInto m) fun e => .texts (edgeRow layout e))
  | .calleesOf s => .ok (g, .sorted layout.methodText (g.calleesOf s))
  | .callersOf m => .ok (g, .sorted layout.siteText (g.callersOf m))
  | .calleesOfMethod m => .ok (g, .sorted layout.methodText (g.calleesOfMethod layout m))
  | .container s => .ok (g, .text (layout.methodText (layout.container s)))
  | .sites m => .ok (g, .texts ((layout.sites m).map layout.siteText))
  | .behind s m => .ok (g, .texts [(layout.stmt s).place, (layout.method m).signature])
  | .fold =>
    .ok (g, .listRows ((g.fold layout).entries.map fun e =>
      (e.1.signature, sortTexts (e.2.map Method.signature))))
  | .report => .ok (g, g.report layout true)
  | .reportPlain => (plain g).map fun r => (g, r)

/-- The report on a graph under contexts once these are dropped. -/
def reportWithoutContexts (code : CodeBase) (g : CallGraph CtxStmt CtxMethod) :
    Except Fault Report := .ok (g.dropContexts.report (.plain code) true)

/-- A graph without contexts has none to drop. -/
def noContexts (_ : CallGraph Stmt Method) : Except Fault Report :=
  .error (.misused "CallGraph" (.part "toContextInsensitive"))

end CallGraph

namespace HierarchyAnalysis

/-- The call graph, whether it was found in a forced order, and the callees of all call sites. -/
def State.report (st : State) (code : CodeBase) (log : Report) : Report :=
  let layout := Layout.plain code
  let sites := (st.graph.reachable.flatMap layout.sites).map fun s =>
    (s.place, sortTexts ((st.graph.calleesOf s).map Method.signature))
  .record (st.graph.pieces layout st.isForced ++
    [("ordered", .flag st.isForced), ("log", log),
      ("reprs", .texts (arrangeTexts st.isForced (st.graph.edges.map CallEdge.describe))),
      ("sites", .listRows (arrangeRows compareListRows st.isForced sites))])

end HierarchyAnalysis

end StaticAnalysis
