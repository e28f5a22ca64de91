import StaticAnalysis.Proofs.CallGraph.Folding

/-!
# The indices of a call graph

An edge is written into a call graph three times, and each reader takes another copy: the whole
list, the edges of a call site or the edges to a method. The three are kept apart, but they never
disagree.

* `CallGraph.Addition`, `CallGraph.ofAdditions` — a graph with the sequence of additions that made
  it.
* `edges_ofAdditions`, `reachable_ofAdditions` — its lists are what was added, repetitions left out.
* `addEdge_answer`, `addReachable_answer` — what the operations answer.

**Main statement** (`indices_agree_with_edges`): both indices are parts of the list of edges, which
has every edge at the place of its first addition, and an addition that is answered with no has
changed nothing.
-/

namespace StaticAnalysis

namespace CallGraph

/-! ### Graphs and what was added to them -/

section Additions

variable {S M : Type}

/-- What can be added to a call graph. -/
inductive Addition (S M : Type) where
  | entry (m : M)
  | method (m : M)
  | edge (e : CallEdge S M)
deriving DecidableEq

namespace Addition

/-- The reachable methods among what is added. -/
def methods : Addition S M → List M
  | method m => [m]
  | _ => []

def edges : Addition S M → List (CallEdge S M)
  | edge e => [e]
  | _ => []

theorem mem_methods {a : Addition S M} {m : M} : m ∈ a.methods ↔ .method m = a := by
  cases a <;> simp [methods]

theorem mem_edges {a : Addition S M} {e : CallEdge S M} : e ∈ a.edges ↔ .edge e = a := by
  cases a <;> simp [edges]

end Addition

variable [DecidableEq S] [DecidableEq M]

/-- The graph with one more addition. -/
def extend (g : CallGraph S M) : Addition S M → CallGraph S M
  | .entry m => g.addEntry m
  | .method m => (g.addReachable m).2
  | .edge e => (g.addEdge e).2

/-- The graph that a sequence of additions makes. -/
def ofAdditions (additions : List (Addition S M)) : CallGraph S M := additions.foldl extend {}

theorem built_ofAdditions (additions : List (Addition S M)) : (ofAdditions additions).Built := by
  refine List.foldlRecOn additions extend .empty ?_
  intro g built a _
  cases a with
  | entry m => exact built.addEntry m
  | method m => exact built.addReachable m
  | edge e => exact built.addEdge e

theorem edges_extend (g : CallGraph S M) (a : Addition S M) :
    (g.extend a).edges = adjoinAll g.edges a.edges := by
  cases a with
  | entry m => rfl
  | method m => exact g.edges_addReachable m
  | edge e => exact g.edges_addEdge e

theorem reachable_extend (g : CallGraph S M) (a : Addition S M) :
    (g.extend a).reachable = adjoinAll g.reachable a.methods := by
  cases a with
  | entry m => rfl
  | method m => exact g.reachable_addReachable m
  | edge e => exact g.reachable_addEdge e

/-- The edges are those that were added, each once. -/
theorem edges_ofAdditions (additions : List (Addition S M)) :
    (ofAdditions additions).edges = distinct (additions.flatMap Addition.edges) :=
  foldl_adjoinAll edges edges_extend additions {}

/-- The reachable methods are those that were added, each once. -/
theorem reachable_ofAdditions (additions : List (Addition S M)) :
    (ofAdditions additions).reachable = distinct (additions.flatMap Addition.methods) :=
  foldl_adjoinAll reachable reachable_extend additions {}

theorem mem_edges_ofAdditions {additions : List (Addition S M)} {e : CallEdge S M} :
    e ∈ (ofAdditions additions).edges ↔ .edge e ∈ additions := by
  simp only [edges_ofAdditions, mem_distinct, List.mem_flatMap, Addition.mem_edges,
    exists_eq_right']

theorem mem_reachable_ofAdditions {additions : List (Addition S M)} {m : M} :
    m ∈ (ofAdditions additions).reachable ↔ .method m ∈ additions := by
  simp only [reachable_ofAdditions, mem_distinct, List.mem_flatMap, Addition.mem_methods,
    exists_eq_right']

end Additions

/-! ### Answers -/

section Answers

variable {S M : Type} [DecidableEq M] (g : CallGraph S M)

/-- Adding an edge tells whether the edge is new; one that is not changes nothing. -/
theorem addEdge_answer [DecidableEq S] (e : CallEdge S M) :
    ((g.addEdge e).1 = true ↔ e ∉ g.edges) ∧ ((g.addEdge e).1 = false → (g.addEdge e).2 = g) := by
  by_cases known : e ∈ g.edges
  · rw [addEdge, if_pos known]
    simp [known]
  · rw [addEdge, if_neg known]
    simp [known]

/-- Adding a method tells whether the method is new; one that is not changes nothing. -/
theorem addReachable_answer (m : M) :
    ((g.addReachable m).1 = true ↔ m ∉ g.reachable) ∧
    ((g.addReachable m).1 = false → (g.addReachable m).2 = g) := by
  by_cases known : m ∈ g.reachable
  · rw [addReachable, if_pos known]
    simp [known]
  · rw [addReachable, if_neg known]
    simp [known]

end Answers

/-- **The indices of a call graph agree with its list of edges.** After any sequence of additions:

* the list has the edges that were added, without repetitions, in the order of their first addition;
* the edges out of a site are the part of the list with that site, and those into a method the part
  with that callee;
* a site calls a method if and only if it is one of the callers of that method, that is, if such an
  edge was added;
* adding an edge or a method is answered with yes if and only if it was not added before, and if the
  answer is no the graph stays as it is. -/
theorem indices_agree_with_edges {S M : Type} [DecidableEq S] [DecidableEq M]
    (additions : List (Addition S M)) :
    ((ofAdditions additions).edges.Nodup ∧
      FirstOccurrences (additions.flatMap Addition.edges) (ofAdditions additions).edges) ∧
    (∀ s, (ofAdditions additions).edgesOutOf s =
      (ofAdditions additions).edges.filter fun e => decide (e.site = s)) ∧
    (∀ m, (ofAdditions additions).edgesInto m =
      (ofAdditions additions).edges.filter fun e => decide (e.callee = m)) ∧
    (∀ s m, (m ∈ (ofAdditions additions).calleesOf s ↔ s ∈ (ofAdditions additions).callersOf m) ∧
      (m ∈ (ofAdditions additions).calleesOf s ↔ ∃ kind, .edge ⟨kind, s, m⟩ ∈ additions)) ∧
    (∀ e, (((ofAdditions additions).addEdge e).1 = true ↔ .edge e ∉ additions) ∧
      (((ofAdditions additions).addEdge e).1 = false →
        ((ofAdditions additions).addEdge e).2 = ofAdditions additions)) ∧
    (∀ m, (((ofAdditions additions).addReachable m).1 = true ↔ .method m ∉ additions) ∧
      (((ofAdditions additions).addReachable m).1 = false →
        ((ofAdditions additions).addReachable m).2 = ofAdditions additions)) := by
  have built := built_ofAdditions additions
  refine ⟨⟨built.nodup.2.2, ?_⟩, built.edgesOutOf_eq, built.edgesInto_eq, ?_, ?_, ?_⟩
  · rw [edges_ofAdditions]
    exact firstOccurrences_distinct _
  · intro s m
    refine ⟨built.mem_calleesOf.trans built.mem_callersOf.symm, ?_⟩
    rw [built.mem_calleesOf]
    constructor
    · intro ⟨e, he, site, callee⟩
      subst site callee
      exact ⟨e.kind, mem_edges_ofAdditions.mp he⟩
    · intro ⟨kind, added⟩
      exact ⟨_, mem_edges_ofAdditions.mpr added, rfl, rfl⟩
  · intro e
    rw [← mem_edges_ofAdditions]
    exact addEdge_answer _ e
  · intro m
    rw [← mem_reachable_ofAdditions]
    exact addReachable_answer _ m

namespace Relay

/-- All edges are added twice, the second time in the opposite order. -/
def additions : List (Addition CtxStmt CtxMethod) :=
  [.entry ([], send), .method ([], send)] ++ edges.map .edge ++ [.method ([], send)] ++
    edges.reverse.map .edge

end Relay

/-- Two edges of different kinds leave the first call, and two edges under different contexts enter
one method. -/
theorem indices_agree_with_edges_relay :
    (ofAdditions Relay.additions).edges = Relay.edges ∧ (ofAdditions Relay.additions).edges.Nodup ∧
    ((ofAdditions Relay.additions).edgesOutOf ([], Relay.first)).map CallEdge.kind =
      [.static, .special] ∧
    ((ofAdditions Relay.additions).edgesInto ([.site Relay.second], Relay.forward)).map
      CallEdge.site = [([.site Relay.first], Relay.second), ([.site Relay.second], Relay.second)] ∧
    ([.site Relay.second], Relay.second) ∈
      (ofAdditions Relay.additions).callersOf ([.site Relay.second], Relay.forward) ∧
    ((ofAdditions Relay.additions).addReachable ([], Relay.send)).2 =
      ofAdditions Relay.additions := by
  have edges : (ofAdditions Relay.additions).edges = Relay.edges := by decide +kernel
  obtain ⟨⟨nodup, -⟩, outOf, into, neighbours, -, methods⟩ :=
    indices_agree_with_edges Relay.additions
  refine ⟨edges, nodup, ?_, ?_, ?_, (methods _).2 (by decide +kernel)⟩
  · rw [outOf, edges]
    decide +kernel
  · rw [into, edges]
    decide +kernel
  · exact (neighbours _ _).1.mp ((neighbours _ _).2.mpr ⟨.static, by decide +kernel⟩)

end CallGraph

end StaticAnalysis
