import StaticAnalysis.Code.Base
import StaticAnalysis.Text.Sort

/-!
# Call graphs

A `CallGraph S M` relates call sites `S` to the methods `M` that they call. Entry methods,
reachable methods and edges are ordered sets; beside the list of edges stand two indices, by call
site and by callee.

What sites and methods are is left open. A `Layout` says how they belong together; `Layout.plain`
is the one for statements and methods.

* `CallGraph.addEntry`, `addReachable`, `addEdge` — the operations that build a graph.
* `CallGraph.calleesOf`, `callersOf`, `calleesOfMethod` — neighbours.
* `CallGraph.fold` — the methods called by each method.
-/

namespace StaticAnalysis

/-- A call edge. -/
structure CallEdge (S M : Type) where
  kind : CallKind
  site : S
  callee : M
deriving DecidableEq

/-- A call graph over sites `S` and methods `M`. -/
structure CallGraph (S M : Type) where
  entries : List M := []
  reachable : List M := []
  edges : List (CallEdge S M) := []
  bySite : Table S (List (CallEdge S M)) := {}
  byCallee : Table M (List (CallEdge S M)) := {}
deriving DecidableEq

/-- How sites and methods belong together. -/
structure Layout (S M : Type) where
  /-- The method in which a site stands. -/
  container : S → M
  /-- The sites in a method. -/
  sites : M → List S
  /-- The statement behind a site. -/
  stmt : S → Stmt
  /-- The method behind a method. -/
  method : M → Method
  siteText : S → String
  methodText : M → String

namespace Layout

/-- Call statements in the methods of a code base. -/
def plain (code : CodeBase) : Layout Stmt Method where
  container := Stmt.method
  sites m := (code.body m).calls
  stmt := id
  method := id
  siteText := Stmt.place
  methodText := Method.signature

end Layout

namespace CallGraph

variable {S M : Type} [DecidableEq S] [DecidableEq M]

/-- Adds an entry method. -/
def addEntry (g : CallGraph S M) (m : M) : CallGraph S M :=
  { g with entries := adjoin g.entries m }

/-- Adds a reachable method. Tells whether it is new. -/
def addReachable (g : CallGraph S M) (m : M) : Bool × CallGraph S M :=
  if m ∈ g.reachable then (false, g)
  else (true, { g with reachable := g.reachable ++ [m] })

/-- Adds an edge. Tells whether it is new. -/
def addEdge (g : CallGraph S M) (e : CallEdge S M) : Bool × CallGraph S M :=
  if e ∈ g.edges then (false, g)
  else
    (true,
      { g with
        edges := g.edges ++ [e]
        bySite := g.bySite.push e.site e
        byCallee := g.byCallee.push e.callee e })

def isReachable (g : CallGraph S M) (m : M) : Bool := decide (m ∈ g.reachable)

/-- The edges that leave a site, in order. -/
def edgesOutOf (g : CallGraph S M) (s : S) : List (CallEdge S M) := g.bySite.getD s []

/-- The edges that enter a method, in order. -/
def edgesInto (g : CallGraph S M) (m : M) : List (CallEdge S M) := g.byCallee.getD m []

/-- The methods that a site calls. -/
def calleesOf (g : CallGraph S M) (s : S) : List M :=
  distinct ((g.edgesOutOf s).map CallEdge.callee)

/-- The sites that call a method. -/
def callersOf (g : CallGraph S M) (m : M) : List S :=
  distinct ((g.edgesInto m).map CallEdge.site)

/-- The methods that the sites of a method call. -/
def calleesOfMethod (layout : Layout S M) (g : CallGraph S M) (m : M) : List M :=
  distinct ((layout.sites m).flatMap g.calleesOf)

/-- The methods behind the callees of the edges that leave each method, in the order in which the
callers first occur. -/
def fold (layout : Layout S M) (g : CallGraph S M) : Table Method (List Method) :=
  g.edges.foldl
    (fun t e =>
      let caller := (layout.stmt e.site).method
      t.set caller (adjoin (t.getD caller []) (layout.method e.callee)))
    {}

/-- The folded graph by signatures, the callees of each caller sorted. -/
def exported (layout : Layout S M) (g : CallGraph S M) : Table String (List String) :=
  (g.fold layout).entries.foldl
    (fun t e => t.set e.1.signature (sortTexts (e.2.map Method.signature)))
    {}

/-- The number of edges. -/
def size (g : CallGraph S M) : Nat := g.edges.length

end CallGraph

end StaticAnalysis
