import StaticAnalysis.CallGraph.Basic
import StaticAnalysis.Context.Basic

/-!
# Call graphs under contexts

The sites and methods of a contextual call graph are statements and methods under contexts, and
`CallGraph.dropContexts` is the plain graph behind it.
-/

namespace StaticAnalysis

/-- Call statements and methods under contexts. A site stands in its method under its own
context. -/
def Layout.contextual (code : CodeBase) : Layout CtxStmt CtxMethod where
  container s := (s.1, s.2.method)
  sites m := (code.body m.2).calls.map fun s => (m.1, s)
  stmt := Prod.snd
  method := Prod.snd
  siteText s := Context.text s.1 ++ s.2.place
  methodText m := Context.text m.1 ++ m.2.signature

/-- The sites in a method under a context are its call statements under the same context. -/
theorem Layout.mem_sites_contextual {code : CodeBase} {s : CtxStmt} {m : CtxMethod} :
    s ∈ (Layout.contextual code).sites m ↔ s.1 = m.1 ∧ s.2 ∈ (code.body m.2).calls := by
  obtain ⟨c, s⟩ := s
  show (c, s) ∈ (code.body m.2).calls.map (fun s => (m.1, s)) ↔ c = m.1 ∧ s ∈ (code.body m.2).calls
  rw [List.mem_map]
  constructor
  · rintro ⟨t, ht, same⟩
    cases same
    exact ⟨rfl, ht⟩
  · rintro ⟨rfl, hs⟩
    exact ⟨s, hs, rfl⟩

/-- An edge without its contexts. -/
def CallEdge.dropContexts (e : CallEdge CtxStmt CtxMethod) : CallEdge Stmt Method :=
  ⟨e.kind, e.site.2, e.callee.2⟩

/-- The call graph behind one with contexts: the same entries, reachable methods and edges, each
once. -/
def CallGraph.dropContexts (g : CallGraph CtxStmt CtxMethod) : CallGraph Stmt Method :=
  let entries := g.entries.foldl (fun h m => h.addEntry m.2) ({} : CallGraph Stmt Method)
  let reached := g.reachable.foldl (fun h m => (h.addReachable m.2).2) entries
  g.edges.foldl (fun h e => (h.addEdge e.dropContexts).2) reached

end StaticAnalysis
