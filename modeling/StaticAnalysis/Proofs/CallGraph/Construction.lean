import StaticAnalysis.Proofs.CallGraph.Projection

/-!
# Call graphs and the operations that build them

A call graph keeps its edges three times: as a list, by call site and by callee. `CallGraph.Built`
are the graphs that the operations lead to, and of these the views agree.

* `Built.nodup` — no method and no edge is listed twice.
* `Built.indexed` — both indices are indices of the list. So **the edges that leave a site are the
  edges of that site**, in the order of the list (`Built.edgesOutOf_eq`), and those that enter a
  method are the edges to that method (`Built.edgesInto_eq`).
* `Built.mem_calleesOf`, `Built.mem_callersOf`, `Built.mem_calleesOfMethod` — neighbours, read off
  the list of edges.
* `built_dropContexts` — dropping contexts gives such a graph.
-/

namespace StaticAnalysis

namespace CallGraph

variable {S M : Type} [DecidableEq S] [DecidableEq M]

/-- The call graphs that the operations lead to, in whatever order they are carried out. -/
inductive Built : CallGraph S M → Prop where
  | empty : Built {}
  | addEntry {g : CallGraph S M} (built : Built g) (m : M) : Built (g.addEntry m)
  | addReachable {g : CallGraph S M} (built : Built g) (m : M) : Built (g.addReachable m).2
  | addEdge {g : CallGraph S M} (built : Built g) (e : CallEdge S M) : Built (g.addEdge e).2

namespace Built

variable {g : CallGraph S M}

/-- Entries, reachable methods and edges are ordered sets. -/
theorem nodup (built : g.Built) : g.entries.Nodup ∧ g.reachable.Nodup ∧ g.edges.Nodup := by
  induction built with
  | empty => exact ⟨List.nodup_nil, List.nodup_nil, List.nodup_nil⟩
  | addEntry _ m ih => exact ⟨nodup_adjoin ih.1 m, ih.2⟩
  | addReachable _ m ih =>
    rw [entries_addReachable, reachable_addReachable, edges_addReachable]
    exact ⟨ih.1, nodup_adjoin ih.2.1 m, ih.2.2⟩
  | addEdge _ e ih =>
    rw [entries_addEdge, reachable_addEdge, edges_addEdge]
    exact ⟨ih.1, ih.2.1, nodup_adjoin ih.2.2 e⟩

/-- Both indices agree with the list of edges. -/
theorem indexed (built : g.Built) :
    g.bySite.Indexes (fun e => some e.site) g.edges ∧
    g.byCallee.Indexes (fun e => some e.callee) g.edges := by
  induction built with
  | empty => exact ⟨fun s => rfl, fun m => rfl⟩
  | addEntry _ m ih => exact ih
  | @addReachable g _ m ih =>
    by_cases known : m ∈ g.reachable
    · rwa [CallGraph.addReachable, if_pos known]
    · rw [CallGraph.addReachable, if_neg known]
      exact ih
  | @addEdge g _ e ih =>
    by_cases known : e ∈ g.edges
    · rwa [CallGraph.addEdge, if_pos known]
    · rw [CallGraph.addEdge, if_neg known]
      exact ⟨ih.1.push rfl, ih.2.push rfl⟩

theorem edgesOutOf_eq (built : g.Built) (s : S) :
    g.edgesOutOf s = g.edges.filter fun e => decide (e.site = s) := by
  rw [edgesOutOf, built.indexed.1 s]
  simp only [Option.some.injEq]

theorem edgesInto_eq (built : g.Built) (m : M) :
    g.edgesInto m = g.edges.filter fun e => decide (e.callee = m) := by
  rw [edgesInto, built.indexed.2 m]
  simp only [Option.some.injEq]

theorem mem_calleesOf (built : g.Built) {s : S} {m : M} :
    m ∈ g.calleesOf s ↔ ∃ e ∈ g.edges, e.site = s ∧ e.callee = m := by
  rw [calleesOf, mem_distinct, built.edgesOutOf_eq, List.mem_map]
  simp only [List.mem_filter, decide_eq_true_eq, and_assoc]

theorem mem_callersOf (built : g.Built) {s : S} {m : M} :
    s ∈ g.callersOf m ↔ ∃ e ∈ g.edges, e.site = s ∧ e.callee = m := by
  rw [callersOf, mem_distinct, built.edgesInto_eq, List.mem_map]
  simp only [List.mem_filter, decide_eq_true_eq, and_assoc, and_comm (a := _ = s)]

theorem mem_calleesOfMethod (built : g.Built) (layout : Layout S M) {caller m : M} :
    m ∈ g.calleesOfMethod layout caller ↔
      ∃ e ∈ g.edges, e.site ∈ layout.sites caller ∧ e.callee = m := by
  rw [calleesOfMethod, mem_distinct, List.mem_flatMap]
  constructor
  · rintro ⟨s, hs, hm⟩
    obtain ⟨e, he, rfl, rfl⟩ := built.mem_calleesOf.mp hm
    exact ⟨e, he, hs, rfl⟩
  · rintro ⟨e, he, hs, rfl⟩
    exact ⟨e.site, hs, built.mem_calleesOf.mpr ⟨e, he, rfl, rfl⟩⟩

end Built

/-! ### Dropping the contexts -/

/-- Dropping contexts is a sequence of operations. -/
theorem built_dropContexts (g : CallGraph CtxStmt CtxMethod) : g.dropContexts.Built := by
  have entries : (g.entries.foldl (fun h m => h.addEntry m.2) ({} : CallGraph Stmt Method)).Built :=
    List.foldlRecOn g.entries _ .empty fun _ built m _ => built.addEntry m.2
  have reached := List.foldlRecOn g.reachable
    (fun (h : CallGraph Stmt Method) m => (h.addReachable m.2).2) entries
    fun _ built m _ => built.addReachable m.2
  exact List.foldlRecOn g.edges _ reached fun _ built e _ => built.addEdge e.dropContexts

end CallGraph

end StaticAnalysis
