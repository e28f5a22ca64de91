import Mathlib.Order.Bounds.Defs
import StaticAnalysis.Proofs.CallGraph.Construction
import StaticAnalysis.Proofs.CallGraph.HierarchyClosure

/-!
# The call graph from the class hierarchy is the least closed one

What `HierarchyAnalysis.build` reaches has to be reached, and it adds no edge but those of the calls
in reachable methods.

* `Program.ClosedUnderCalls` — sets of methods that have the entries and with a method all that its
  calls may run.
* `built_build` — the graph is built by the operations of call graphs.
* `Grounded` — the invariant of the visits: what is reachable or queued is in all these sets, and
  edges come from reachable methods. `Grounded.skip` and `Grounded.visit` are the steps.

**Main statement** (`build_eq_least_closure`): the reachable methods are the least of these sets,
and the edges are those of the calls in reachable methods, each once, whatever the order in which
targets are taken.
-/

namespace StaticAnalysis

/-- A set of methods that has the entries of a program and with a method all that its calls may
run. -/
structure Program.ClosedUnderCalls (p : Program) (ms : Set Method) : Prop where
  entries : ∀ m ∈ p.entries, m ∈ ms
  calls : ∀ m ∈ ms, ∀ s ∈ (p.code.body m).stmts, ∀ call, s.call? = some call →
    ∀ c ∈ p.code.resolve call, c ∈ ms

/-- The edges that the statements of a body give. -/
theorem CodeBase.exists_mem_callEdges {code : CodeBase} {body : Body} {e : CallEdge Stmt Method} :
    (∃ s ∈ body.calls, e ∈ code.callEdges s) ↔
      ∃ s ∈ body.stmts, ∃ call, s.call? = some call ∧
        ∃ c ∈ code.resolve call, e = ⟨call.kind, s, c⟩ := by
  constructor
  · rintro ⟨s, hs, he⟩
    obtain ⟨mem, isCall⟩ := List.mem_filter.mp hs
    obtain ⟨call, hcall⟩ := Option.isSome_iff_exists.mp isCall
    rw [callEdges_of_call hcall] at he
    obtain ⟨c, hc, rfl⟩ := List.mem_map.mp he
    exact ⟨s, mem, call, hcall, c, hc, rfl⟩
  · rintro ⟨s, mem, call, hcall, c, hc, rfl⟩
    refine ⟨s, List.mem_filter.mpr ⟨mem, Option.isSome_iff_exists.mpr ⟨call, hcall⟩⟩, ?_⟩
    rw [callEdges_of_call hcall]
    exact List.mem_map.mpr ⟨c, hc, rfl⟩

namespace HierarchyAnalysis

variable {code : CodeBase} {order : Arrangement Method} {p : Program}

/-! ### Visits are operations of call graphs -/

theorem built_start (p : Program) : (start p).graph.Built :=
  List.foldlRecOn p.entries _ .empty fun _ built m _ => built.addEntry m

theorem built_addCall {st : State} (h : st.graph.Built) (s : Stmt) :
    (st.addCall code order s).graph.Built := by
  unfold State.addCall
  split
  · exact h
  · next call hcall =>
      exact List.foldlRecOn _ _ h fun _ built m _ => built.addEdge ⟨call.kind, s, m⟩

theorem built_visit {st : State} (h : st.graph.Built) (m : Method) (queue : List Method) :
    (st.visit code order m queue).graph.Built :=
  List.foldlRecOn (motive := fun st : State => st.graph.Built) (code.body m).calls _
    (h.addReachable m)
    fun _ built s _ => built_addCall built s

theorem built_build (p : Program) (order : Arrangement Method) : (build p order).Built :=
  ((completes_run p order).invariant (fun st => st.graph.Built) (fun _ _ _ h _ _ => h)
    (fun _ m queue h _ _ => built_visit h m queue) (built_start p)).1

theorem entries_addCall (st : State) (s : Stmt) :
    (st.addCall code order s).graph.entries = st.graph.entries := by
  unfold State.addCall
  split
  · rfl
  · next call hcall =>
    exact foldl_unchanged CallGraph.entries
      (fun (g : CallGraph Stmt Method) m => CallGraph.entries_addEdge g ⟨call.kind, s, m⟩)
      _ st.graph

theorem entries_visit (st : State) (m : Method) (queue : List Method) :
    (st.visit code order m queue).graph.entries = st.graph.entries := by
  have call : ∀ (st : State) s, (st.addCall code order s).graph.entries = st.graph.entries :=
    entries_addCall
  rw [State.visit, foldl_unchanged (fun st : State => st.graph.entries) call,
    CallGraph.entries_addReachable]

/-- Visits change no entries. -/
theorem entries_build (p : Program) (order : Arrangement Method) :
    (build p order).entries = distinct p.entries := by
  have enter : ∀ (g : CallGraph Stmt Method) m, (g.addEntry m).entries = adjoin g.entries (id m) :=
    fun _ _ => rfl
  have first : (start p).graph.entries = distinct p.entries := by
    have added := foldl_adjoin CallGraph.entries enter p.entries {}
    rwa [List.map_id] at added
  exact ((completes_run p order).invariant (fun st => st.graph.entries = distinct p.entries)
    (fun _ _ _ h _ _ => h)
    (fun st m queue h _ _ => (entries_visit st m queue).trans h) first).1

/-! ### Nothing is made up -/

/-- Reachable and queued methods have to be reached, and edges come from reachable methods. -/
structure Grounded (p : Program) (st : State) : Prop where
  forced : ∀ ms, p.ClosedUnderCalls ms → ∀ m, m ∈ st.graph.reachable ∨ m ∈ st.queue → m ∈ ms
  edges : ∀ e ∈ st.graph.edges, ∃ m ∈ st.graph.reachable, ∃ s ∈ (p.code.body m).calls,
    e ∈ p.code.callEdges s

namespace Grounded

theorem start : Grounded p (start p) := by
  refine ⟨?_, ?_⟩
  · intro ms closed m hm
    rw [reachable_start] at hm
    exact closed.entries m (hm.resolve_left List.not_mem_nil)
  · rw [edges_start]
    exact fun e he => absurd he List.not_mem_nil

theorem skip {st : State} {m : Method} {queue : List Method} (h : Grounded p st)
    (front : st.queue = m :: queue) : Grounded p { st with queue := queue } := by
  refine ⟨?_, h.edges⟩
  intro ms closed x hx
  refine h.forced ms closed x (hx.imp id fun hq => ?_)
  rw [front]
  exact List.mem_cons_of_mem m hq

/-- The method that is visited has to be reached, and then so has all that it calls. -/
theorem visit {st : State} {m : Method} {queue : List Method} (h : Grounded p st)
    (front : st.queue = m :: queue) : Grounded p (st.visit p.code order m queue) := by
  refine ⟨?_, ?_⟩
  · intro ms closed x hx
    rcases (found_visit front).mp hx with hx | ⟨s, hs, e, he, rfl⟩
    · exact h.forced ms closed x hx
    · have caller : m ∈ ms := h.forced ms closed m (Or.inr (front ▸ List.mem_cons_self))
      obtain ⟨s, mem, call, hcall, c, hc, rfl⟩ := CodeBase.exists_mem_callEdges.mp ⟨s, hs, he⟩
      exact closed.calls m caller s mem call hcall c hc
  · intro e he
    rw [reachable_visit]
    rcases mem_edges_visit.mp he with he | he
    · obtain ⟨m', hm', from_m'⟩ := h.edges e he
      exact ⟨m', mem_adjoin.mpr (Or.inl hm'), from_m'⟩
    · exact ⟨m, mem_adjoin.mpr (Or.inr rfl), he⟩

end Grounded

theorem grounded_run (p : Program) (order : Arrangement Method) : Grounded p (run p order) :=
  ((completes_run p order).invariant (Grounded p) (fun _ _ _ h front _ => h.skip front)
    (fun _ _ _ h front _ => h.visit front) .start).1

/-- **The call graph of a program is the closure of its entries.** Whatever the order in which the
targets of calls are taken, each time anew:

* the visits, of which each takes a method from the queue, come to an end with an empty queue;
* the reachable methods, each listed once, are the least set that has the entries and with a method
  all that its calls may run;
* the edges, each listed once, lead from the calls in reachable methods to all that these may run,
  and there are no others. -/
theorem build_eq_least_closure (p : Program) (order : Arrangement Method) :
    Completes p.code order (start p) (run p order) ∧
    (build p order).reachable.Nodup ∧
    IsLeast {ms : Set Method | p.ClosedUnderCalls ms} {m | m ∈ (build p order).reachable} ∧
    (build p order).edges.Nodup ∧
    ∀ e, e ∈ (build p order).edges ↔
      ∃ m ∈ (build p order).reachable, ∃ s ∈ (p.code.body m).stmts, ∃ call, s.call? = some call ∧
        ∃ c ∈ p.code.resolve call, e = ⟨call.kind, s, c⟩ := by
  have closed := closed_build p order
  have grounded := grounded_run p order
  obtain ⟨-, nodup_reachable, nodup_edges⟩ := (built_build p order).nodup
  have edge : ∀ e, e ∈ (build p order).edges ↔
      ∃ m ∈ (build p order).reachable, ∃ s ∈ (p.code.body m).stmts, ∃ call, s.call? = some call ∧
        ∃ c ∈ p.code.resolve call, e = ⟨call.kind, s, c⟩ := by
    intro e
    simp only [← CodeBase.exists_mem_callEdges]
    constructor
    · intro he
      exact grounded.edges e he
    · rintro ⟨m, hm, s, hs, he⟩
      exact closed.calls m hm s hs he
  refine ⟨completes_run p order, nodup_reachable, ⟨⟨closed.entries, ?_⟩, ?_⟩, nodup_edges, edge⟩
  · intro m hm s hs call hcall c hc
    exact closed.callees _ ((edge ⟨call.kind, s, c⟩).mpr ⟨m, hm, s, hs, call, hcall, c, hc, rfl⟩)
  · intro ms hms m hm
    exact grounded.forced ms hms m (Or.inl hm)

end HierarchyAnalysis

end StaticAnalysis
