import StaticAnalysis.CallGraph.Contextual

/-!
# The call graph behind one with contexts

`CallGraph.dropContexts` is built by the operations of call graphs, one element after the other.

* `reachable_addReachable`, `edges_addEdge` and their neighbours — what each operation does to the
  lists of a call graph.
* `entries_dropContexts`, `reachable_dropContexts`, `edges_dropContexts` — **the plain graph has the
  methods and the edges of the contextual one**, contexts dropped, each at its first occurrence.
-/

namespace StaticAnalysis

/-! ### Lists that are built by insertion -/

section Folds

variable {α β γ : Type}

/-- If every step inserts an element into a list that can be seen of a value, then a fold inserts
them all. -/
theorem foldl_adjoin [DecidableEq γ] (view : β → List γ) {step : β → α → β} {elem : α → γ}
    (h : ∀ b a, view (step b a) = adjoin (view b) (elem a)) (l : List α) (b : β) :
    view (l.foldl step b) = adjoinAll (view b) (l.map elem) := by
  rw [List.map_eq_flatMap]
  exact foldl_adjoinAll view h l b

/-- What no step changes, a fold does not change. -/
theorem foldl_unchanged (view : β → γ) {step : β → α → β} (h : ∀ b a, view (step b a) = view b) :
    ∀ (l : List α) (b : β), view (l.foldl step b) = view b := by
  intro l
  induction l with
  | nil =>
    intro b
    rfl
  | cons a l ih =>
    intro b
    show view (l.foldl step (step b a)) = view b
    rw [ih, h]

end Folds

namespace CallGraph

/-! ### The operations -/

section Operations

variable {S M : Type} [DecidableEq M] (g : CallGraph S M)

@[simp] theorem reachable_addReachable (m : M) :
    (g.addReachable m).2.reachable = adjoin g.reachable m := by
  by_cases h : m ∈ g.reachable
  · rw [addReachable, if_pos h, adjoin_of_mem h]
  · rw [addReachable, if_neg h, adjoin_of_not_mem h]

@[simp] theorem edges_addReachable (m : M) : (g.addReachable m).2.edges = g.edges := by
  by_cases h : m ∈ g.reachable
  · rw [addReachable, if_pos h]
  · rw [addReachable, if_neg h]

@[simp] theorem entries_addReachable (m : M) : (g.addReachable m).2.entries = g.entries := by
  by_cases h : m ∈ g.reachable
  · rw [addReachable, if_pos h]
  · rw [addReachable, if_neg h]

@[simp] theorem edges_addEdge [DecidableEq S] (e : CallEdge S M) :
    (g.addEdge e).2.edges = adjoin g.edges e := by
  by_cases h : e ∈ g.edges
  · rw [addEdge, if_pos h, adjoin_of_mem h]
  · rw [addEdge, if_neg h, adjoin_of_not_mem h]

@[simp] theorem reachable_addEdge [DecidableEq S] (e : CallEdge S M) :
    (g.addEdge e).2.reachable = g.reachable := by
  by_cases h : e ∈ g.edges
  · rw [addEdge, if_pos h]
  · rw [addEdge, if_neg h]

@[simp] theorem entries_addEdge [DecidableEq S] (e : CallEdge S M) :
    (g.addEdge e).2.entries = g.entries := by
  by_cases h : e ∈ g.edges
  · rw [addEdge, if_pos h]
  · rw [addEdge, if_neg h]

end Operations

/-! ### Dropping the contexts -/

variable (g : CallGraph CtxStmt CtxMethod)

theorem reachable_dropContexts :
    g.dropContexts.reachable = distinct (g.reachable.map Prod.snd) := by
  have entries :
      (g.entries.foldl (fun h m => h.addEntry m.2) ({} : CallGraph Stmt Method)).reachable = [] :=
    foldl_unchanged reachable (by intro h m; rfl) g.entries {}
  have reached := foldl_adjoin reachable
    (fun (h : CallGraph Stmt Method) (m : CtxMethod) => reachable_addReachable h m.2) g.reachable
  have edges := foldl_unchanged reachable
    (fun (h : CallGraph Stmt Method) (e : CallEdge CtxStmt CtxMethod) =>
      reachable_addEdge h e.dropContexts)
    g.edges
  rw [dropContexts, edges, reached, entries]
  rfl

theorem edges_dropContexts :
    g.dropContexts.edges = distinct (g.edges.map CallEdge.dropContexts) := by
  have entries :
      (g.entries.foldl (fun h m => h.addEntry m.2) ({} : CallGraph Stmt Method)).edges = [] :=
    foldl_unchanged edges (by intro h m; rfl) g.entries {}
  have reached := foldl_unchanged edges
    (fun (h : CallGraph Stmt Method) (m : CtxMethod) => edges_addReachable h m.2) g.reachable
  have added := foldl_adjoin edges
    (fun (h : CallGraph Stmt Method) (e : CallEdge CtxStmt CtxMethod) =>
      edges_addEdge h e.dropContexts) g.edges
  rw [dropContexts, added, reached, entries]
  rfl

theorem entries_dropContexts : g.dropContexts.entries = distinct (g.entries.map Prod.snd) := by
  have added := foldl_adjoin entries
    (fun (h : CallGraph Stmt Method) (m : CtxMethod) =>
      show (h.addEntry m.2).entries = adjoin h.entries m.2 from rfl)
    g.entries
  have reached := foldl_unchanged entries
    (fun (h : CallGraph Stmt Method) (m : CtxMethod) => entries_addReachable h m.2) g.reachable
  have edges := foldl_unchanged entries
    (fun (h : CallGraph Stmt Method) (e : CallEdge CtxStmt CtxMethod) =>
      entries_addEdge h e.dropContexts)
    g.edges
  rw [dropContexts, edges, reached, added]
  rfl

theorem mem_reachable_dropContexts {m : Method} :
    m ∈ g.dropContexts.reachable ↔ ∃ c, (c, m) ∈ g.reachable := by
  rw [reachable_dropContexts, mem_distinct, List.mem_map]
  constructor
  · rintro ⟨⟨c, m'⟩, hm, rfl⟩
    exact ⟨c, hm⟩
  · rintro ⟨c, hm⟩
    exact ⟨(c, m), hm, rfl⟩

theorem mem_edges_dropContexts {e : CallEdge Stmt Method} :
    e ∈ g.dropContexts.edges ↔ ∃ e' ∈ g.edges, e'.dropContexts = e := by
  rw [edges_dropContexts, mem_distinct, List.mem_map]

end CallGraph

end StaticAnalysis
