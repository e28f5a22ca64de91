import Mathlib.Data.List.TakeWhile
import StaticAnalysis.Proofs.CallGraph.Projection
import StaticAnalysis.Proofs.CallGraph.Subtypes

/-!
# The call graph from the class hierarchy is closed

`HierarchyAnalysis.build` visits methods from a queue in which they may stand several times.
Whatever the order of the targets, it leaves nothing out.

* `CodeBase.callEdges` — the edges that a statement may give.
* `mem_edges_addCalls`, `mem_queue_addCalls` — what the calls of one method do to the graph and to
  the queue.
* `Completes` — the visits without a limit. `Completes.invariant` carries what both of its steps
  keep to the end.
* `Explores` — the invariant of the visits: what is not reachable yet is queued. `Explores.skip` and
  `Explores.visit` are the steps.
* `completes_run` — **the visits come to an end**: those that are allowed are enough to empty the
  queue.

**Main statement** (`closed_build`): the entries are reachable, the calls of reachable methods have
all their edges, and callees are reachable.
-/

namespace StaticAnalysis

/-! ### The edges of a call -/

namespace CodeBase

variable (code : CodeBase)

/-- The edges that a statement may give: one to every possible target, if it is a call. -/
def callEdges (s : Stmt) : List (CallEdge Stmt Method) :=
  match s.call? with
  | none => []
  | some call => (code.resolve call).map fun m => ⟨call.kind, s, m⟩

variable {code}

theorem callEdges_of_call {s : Stmt} {call : Call} (h : s.call? = some call) :
    code.callEdges s = (code.resolve call).map fun m => ⟨call.kind, s, m⟩ := by
  rw [callEdges, h]

theorem mem_declaredMethods_of_mem_resolve {call : Call} {m : Method} (h : m ∈ code.resolve call) :
    m ∈ code.declaredMethods := by
  have dispatched : ∃ c, code.dispatch c call.target.subsignature = some m := by
    unfold resolve at h
    split at h
    · exact ⟨_, Option.mem_toList.mp h⟩
    · exact ⟨_, Option.mem_toList.mp h⟩
    · obtain ⟨c, -, hc⟩ := List.mem_filterMap.mp (mem_distinct.mp h)
      exact ⟨c, hc⟩
    · obtain ⟨c, -, hc⟩ := List.mem_filterMap.mp (mem_distinct.mp h)
      exact ⟨c, hc⟩
    · exact absurd h List.not_mem_nil
  obtain ⟨c, hc⟩ := dispatched
  exact mem_declaredMethods_of_dispatch hc

theorem mem_declaredMethods_of_mem_callEdges {s : Stmt} {e : CallEdge Stmt Method}
    (h : e ∈ code.callEdges s) : e.callee ∈ code.declaredMethods := by
  unfold callEdges at h
  split at h
  · exact absurd h List.not_mem_nil
  · obtain ⟨m, hm, rfl⟩ := List.mem_map.mp h
    exact mem_declaredMethods_of_mem_resolve hm

end CodeBase

namespace HierarchyAnalysis

variable {code : CodeBase} {order : Arrangement Method}

/-! ### The calls of a method -/

theorem reachable_addCall (st : State) (s : Stmt) :
    (st.addCall code order s).graph.reachable = st.graph.reachable := by
  unfold State.addCall
  split
  · rfl
  · exact foldl_unchanged CallGraph.reachable
      (fun g m => CallGraph.reachable_addEdge g _) _ st.graph

theorem mem_edges_addCall {st : State} {s : Stmt} {e : CallEdge Stmt Method} :
    e ∈ (st.addCall code order s).graph.edges ↔ e ∈ st.graph.edges ∨ e ∈ code.callEdges s := by
  unfold State.addCall
  split
  · next h => simp [CodeBase.callEdges, h]
  · next call h =>
    have added := foldl_adjoin CallGraph.edges
      (fun (g : CallGraph Stmt Method) m => CallGraph.edges_addEdge g ⟨call.kind, s, m⟩)
      (order.arrange st.resolved.length (code.resolve call)) st.graph
    rw [added, mem_adjoinAll, CodeBase.callEdges_of_call h]
    exact or_congr_right ((order.perm _ _).map _).mem_iff

theorem mem_queue_addCall {st : State} {s : Stmt} {m : Method} :
    m ∈ (st.addCall code order s).queue ↔
      m ∈ st.queue ∨ ∃ e ∈ code.callEdges s, e.callee = m := by
  unfold State.addCall
  split
  · next h => simp [CodeBase.callEdges, h]
  · next call h =>
    rw [CodeBase.callEdges_of_call h, List.mem_append, (order.perm _ _).mem_iff]
    simp

theorem reachable_addCalls (calls : List Stmt) (st : State) :
    (calls.foldl (State.addCall code order) st).graph.reachable = st.graph.reachable :=
  foldl_unchanged (fun st => st.graph.reachable) reachable_addCall calls st

theorem mem_edges_addCalls {calls : List Stmt} {st : State} {e : CallEdge Stmt Method} :
    e ∈ (calls.foldl (State.addCall code order) st).graph.edges ↔
      e ∈ st.graph.edges ∨ ∃ s ∈ calls, e ∈ code.callEdges s := by
  induction calls generalizing st with
  | nil => simp
  | cons s calls ih =>
    rw [List.foldl_cons, ih, mem_edges_addCall, List.exists_mem_cons_iff, or_assoc]

theorem mem_queue_addCalls {calls : List Stmt} {st : State} {m : Method} :
    m ∈ (calls.foldl (State.addCall code order) st).queue ↔
      m ∈ st.queue ∨ ∃ s ∈ calls, ∃ e ∈ code.callEdges s, e.callee = m := by
  induction calls generalizing st with
  | nil => simp
  | cons s calls ih =>
    rw [List.foldl_cons, ih, mem_queue_addCall, List.exists_mem_cons_iff, or_assoc]

/-! ### Visits -/

/-- The state in which the analysis of a program begins. -/
def start (p : Program) : State :=
  { graph := p.entries.foldl CallGraph.addEntry {}, queue := p.entries }

/-- A method becomes reachable, and its calls are added. -/
def State.visit (code : CodeBase) (order : Arrangement Method) (st : State) (m : Method)
    (queue : List Method) : State :=
  (code.body m).calls.foldl (State.addCall code order)
    { st with graph := (st.graph.addReachable m).2, queue := queue }

/-- The visits without a limit: methods are taken from the queue one after the other until it is
empty. Those that are reachable already are left alone. -/
inductive Completes (code : CodeBase) (order : Arrangement Method) : State → State → Prop where
  | done {st : State} (empty : st.queue = []) : Completes code order st st
  | skip {st final : State} {m : Method} {queue : List Method} (front : st.queue = m :: queue)
      (known : m ∈ st.graph.reachable)
      (later : Completes code order { st with queue := queue } final) :
      Completes code order st final
  | visit {st final : State} {m : Method} {queue : List Method} (front : st.queue = m :: queue)
      (new : m ∉ st.graph.reachable)
      (later : Completes code order (st.visit code order m queue) final) :
      Completes code order st final

/-- What both kinds of steps keep holds at the end, when nothing is queued. -/
theorem Completes.invariant {st final : State} (h : Completes code order st final)
    (Inv : State → Prop)
    (skip : ∀ st m queue, Inv st → st.queue = m :: queue → m ∈ st.graph.reachable →
      Inv { st with queue := queue })
    (visit : ∀ st m queue, Inv st → st.queue = m :: queue → m ∉ st.graph.reachable →
      Inv (st.visit code order m queue))
    (first : Inv st) : Inv final ∧ final.queue = [] := by
  induction h with
  | done empty => exact ⟨first, empty⟩
  | skip front known _ ih => exact ih (skip _ _ _ first front known)
  | visit front new _ ih => exact ih (visit _ _ _ first front new)

theorem isReachable_iff {graph : CallGraph Stmt Method} {m : Method} :
    graph.isReachable m = true ↔ m ∈ graph.reachable := decide_eq_true_iff

/-- Reachable methods in front of the queue may be left out at once. -/
theorem completes_of_dropWhile {graph : CallGraph Stmt Method} {queue : List Method}
    {resolved : List (Stmt × Nat)} {final : State}
    (h : Completes code order ⟨graph, queue.dropWhile graph.isReachable, resolved⟩ final) :
    Completes code order ⟨graph, queue, resolved⟩ final := by
  induction queue with
  | nil => exact h
  | cons m queue ih =>
    by_cases known : m ∈ graph.reachable
    · rw [List.dropWhile_cons_of_pos (isReachable_iff.mpr known)] at h
      exact .skip rfl known (ih h)
    · rwa [List.dropWhile_cons_of_neg (mt isReachable_iff.mp known)] at h

/-- What has been found of a program so far: all that is known to be called has been visited or is
queued. -/
structure Explores (p : Program) (st : State) : Prop where
  nodup : st.graph.reachable.Nodup
  known : ∀ m, m ∈ st.graph.reachable ∨ m ∈ st.queue → m ∈ p.entries ++ p.code.declaredMethods
  entries : ∀ m ∈ p.entries, m ∈ st.graph.reachable ∨ m ∈ st.queue
  calls : ∀ m ∈ st.graph.reachable, ∀ s ∈ (p.code.body m).calls, ∀ e ∈ p.code.callEdges s,
    e ∈ st.graph.edges
  callees : ∀ e ∈ st.graph.edges, e.callee ∈ st.graph.reachable ∨ e.callee ∈ st.queue

theorem reachable_start (p : Program) : (start p).graph.reachable = [] :=
  foldl_unchanged CallGraph.reachable (by intro g m; rfl) p.entries {}

theorem edges_start (p : Program) : (start p).graph.edges = [] :=
  foldl_unchanged CallGraph.edges (by intro g m; rfl) p.entries {}

theorem reachable_visit {st : State} {m : Method} {queue : List Method} :
    (st.visit code order m queue).graph.reachable = adjoin st.graph.reachable m := by
  rw [State.visit, reachable_addCalls, CallGraph.reachable_addReachable]

theorem mem_edges_visit {st : State} {m : Method} {queue : List Method} {e : CallEdge Stmt Method} :
    e ∈ (st.visit code order m queue).graph.edges ↔
      e ∈ st.graph.edges ∨ ∃ s ∈ (code.body m).calls, e ∈ code.callEdges s := by
  rw [State.visit, mem_edges_addCalls, CallGraph.edges_addReachable]

/-- Behind a visit, what is reachable or queued was so before, or is called by the method. -/
theorem found_visit {st : State} {m : Method} {queue : List Method} (front : st.queue = m :: queue)
    {x : Method} :
    x ∈ (st.visit code order m queue).graph.reachable ∨ x ∈ (st.visit code order m queue).queue ↔
      (x ∈ st.graph.reachable ∨ x ∈ st.queue) ∨
        ∃ s ∈ (code.body m).calls, ∃ e ∈ code.callEdges s, e.callee = x := by
  rw [reachable_visit, State.visit, mem_queue_addCalls, mem_adjoin, front, List.mem_cons]
  tauto

namespace Explores

variable {p : Program}

theorem start : Explores p (start p) := by
  refine ⟨?_, ?_, ?_, ?_, ?_⟩
  · rw [reachable_start]
    exact List.nodup_nil
  · rw [reachable_start]
    rintro m (hm | hm)
    · exact absurd hm List.not_mem_nil
    · exact List.mem_append_left _ hm
  · intro m hm
    exact Or.inr hm
  · rw [reachable_start]
    exact fun m hm => absurd hm List.not_mem_nil
  · rw [edges_start]
    exact fun e he => absurd he List.not_mem_nil

/-- A method that is reachable already may leave the queue. -/
theorem skip {st : State} {m : Method} {queue : List Method} (h : Explores p st)
    (front : st.queue = m :: queue) (known : m ∈ st.graph.reachable) :
    Explores p { st with queue := queue } := by
  have kept : ∀ x, x ∈ st.graph.reachable ∨ x ∈ st.queue → x ∈ st.graph.reachable ∨ x ∈ queue := by
    intro x hx
    rw [front, List.mem_cons] at hx
    rcases hx with hx | rfl | hx
    · exact Or.inl hx
    · exact Or.inl known
    · exact Or.inr hx
  refine ⟨h.nodup, ?_, fun x hx => kept x (h.entries x hx), h.calls,
    fun e he => kept _ (h.callees e he)⟩
  intro x hx
  refine h.known x (hx.imp id fun hq => ?_)
  rw [front]
  exact List.mem_cons_of_mem m hq

/-- A visit: the first queued method becomes reachable, and its calls are added. -/
theorem visit {st : State} {m : Method} {queue : List Method} (h : Explores p st)
    (front : st.queue = m :: queue) : Explores p (st.visit p.code order m queue) := by
  refine ⟨?_, ?_, ?_, ?_, ?_⟩
  · rw [reachable_visit]
    exact nodup_adjoin h.nodup m
  · intro x hx
    rcases (found_visit front).mp hx with hx | ⟨s, -, e, he, rfl⟩
    · exact h.known x hx
    · exact List.mem_append_right _ (CodeBase.mem_declaredMethods_of_mem_callEdges he)
  · intro x hx
    exact (found_visit front).mpr (Or.inl (h.entries x hx))
  · intro x hx s hs e he
    rw [reachable_visit, mem_adjoin] at hx
    rw [mem_edges_visit]
    rcases hx with hx | rfl
    · exact Or.inl (h.calls x hx s hs e he)
    · exact Or.inr ⟨s, hs, he⟩
  · intro e he
    refine (found_visit front).mpr ?_
    rcases mem_edges_visit.mp he with he | ⟨s, hs, he⟩
    · exact Or.inl (h.callees e he)
    · exact Or.inr ⟨s, hs, e, he, rfl⟩

theorem dropWhile {graph : CallGraph Stmt Method} {queue : List Method}
    {resolved : List (Stmt × Nat)} (h : Explores p ⟨graph, queue, resolved⟩) :
    Explores p ⟨graph, queue.dropWhile graph.isReachable, resolved⟩ := by
  induction queue with
  | nil => exact h
  | cons m queue ih =>
    by_cases known : m ∈ graph.reachable
    · rw [List.dropWhile_cons_of_pos (isReachable_iff.mpr known)]
      exact ih (h.skip rfl known)
    · rwa [List.dropWhile_cons_of_neg (mt isReachable_iff.mp known)]

/-- Only known methods become reachable, each once. -/
theorem length_reachable_le {st : State} (h : Explores p st) :
    st.graph.reachable.length ≤ (p.entries ++ p.code.declaredMethods).length :=
  (h.nodup.subperm fun m hm => h.known m (Or.inl hm)).length_le

end Explores

/-- As many visits as there are methods are enough. -/
theorem completes_visitAll {p : Program} : ∀ (n : Nat) (st : State), Explores p st →
    (p.entries ++ p.code.declaredMethods).length < n + st.graph.reachable.length →
    Completes p.code order st (visitAll p.code order n st) := by
  intro n
  induction n with
  | zero =>
    intro st h enough
    have := h.length_reachable_le
    omega
  | succ n ih =>
    rintro ⟨graph, queue, resolved⟩ h enough
    have rest := h.dropWhile
    refine completes_of_dropWhile ?_
    rw [visitAll]
    split
    · next front =>
      rw [front]
      exact .done rfl
    · next m queue' front =>
      have new : m ∉ graph.reachable := by
        intro known
        have head := List.head_dropWhile_not graph.isReachable (l := queue)
          (by rw [front]; exact List.cons_ne_nil _ _)
        simp only [front, List.head_cons, isReachable_iff.mpr known] at head
        contradiction
      rw [front] at rest ⊢
      refine .visit rfl new (ih _ (rest.visit rfl) ?_)
      have grown : (graph.reachable ++ [m]).length = graph.reachable.length + 1 := by simp
      rw [reachable_visit, adjoin_of_not_mem new, grown]
      dsimp only at enough
      omega

/-- **The visits come to an end**, whatever the order in which targets are taken. -/
theorem completes_run (p : Program) (order : Arrangement Method) :
    Completes p.code order (start p) (run p order) := by
  refine completes_visitAll (visitLimit p) (start p) .start (Nat.lt_add_right _ ?_)
  simp [visitLimit]

/-- At the end everything has been found, and nothing is queued. -/
theorem explores_run (p : Program) (order : Arrangement Method) :
    Explores p (run p order) ∧ (run p order).queue = [] :=
  (completes_run p order).invariant (Explores p) (fun _ _ _ h => h.skip)
    (fun _ _ _ h front _ => h.visit front) .start

/-- A call graph that leaves nothing out: entries are reachable, so is what reachable methods may
call. -/
structure ClosedCalls (p : Program) (g : CallGraph Stmt Method) : Prop where
  entries : p.entries ⊆ g.reachable
  calls : ∀ m ∈ g.reachable, ∀ s ∈ (p.code.body m).calls, p.code.callEdges s ⊆ g.edges
  callees : ∀ e ∈ g.edges, e.callee ∈ g.reachable

/-- **The graph is closed**, whatever the order in which targets are taken. -/
theorem closed_build (p : Program) (order : Arrangement Method) :
    ClosedCalls p (build p order) := by
  obtain ⟨h, empty⟩ := explores_run p order
  have visited : ∀ m, m ∈ (run p order).graph.reachable ∨ m ∈ (run p order).queue →
      m ∈ (build p order).reachable := by
    intro m hm
    rw [empty] at hm
    exact hm.elim id fun hm => absurd hm List.not_mem_nil
  exact ⟨fun m hm => visited m (h.entries m hm), h.calls, fun e he => visited _ (h.callees e he)⟩

end HierarchyAnalysis

end StaticAnalysis
