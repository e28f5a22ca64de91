import Mathlib.Logic.Function.Basic
import StaticAnalysis.Dataflow.Engine
import StaticAnalysis.Proofs.Dataflow.WorkList

/-!
# The worklist engine solves equations

What an engine computes, said without tables and faults: a system of equations for the inputs and
outputs of nodes, and visits that make the equations of one node hold at the cost of those of its
successors.

* `Equations` — how inputs follow from outputs and outputs from inputs; `Equations.Solved` says that
  all hold.
* `Snapshot` and `Equations.visit` — the facts of all nodes with the nodes to be visited, and one
  visit; `Equations.Settles` are whole runs.
* `Consistent` — the invariant of the visits. The nodes are visited a first time one after the
  other, in their own order; of those that have been, only the pending ones may violate their
  equations. `Consistent.visit` is the step.
* `Engine.Implements` — an engine without missing facts and operations makes these visits;
  `Implements.run` carries runs over from snapshots to it.

No order of facts is assumed here.
-/

namespace StaticAnalysis.Dataflow

/-- A system of equations for the facts on both sides of nodes. -/
structure Equations (N F : Type) where
  nodes : List N
  /-- The input of a node, from the outputs of all nodes. -/
  gather : (N → F) → N → F
  /-- The output of a node, from its input. -/
  transfer : N → F → F
  /-- The nodes whose inputs depend on the output of a node. -/
  succs : N → List N

/-- The facts of all nodes and the nodes to be visited. -/
structure Snapshot (N F : Type) where
  input : N → F
  output : N → F
  work : WorkList N

namespace Equations

variable {N F : Type} (eqs : Equations N F)

/-- Facts that satisfy the equations of all nodes. -/
def Solved (input output : N → F) : Prop :=
  ∀ n ∈ eqs.nodes, input n = eqs.gather output n ∧ output n = eqs.transfer n (input n)

/-- The nodes are listed once, and the input of a node depends only on the outputs of the nodes that
it is a successor of. -/
structure Local : Prop where
  nodup : eqs.nodes.Nodup
  ends : ∀ m n, n ∈ eqs.succs m → m ∈ eqs.nodes ∧ n ∈ eqs.nodes
  gather_congr : ∀ n output output', (∀ m, n ∈ eqs.succs m → output m = output' m) →
    eqs.gather output n = eqs.gather output' n

/-! ### Which equations hold during a run -/

/-- The nodes `seen` have been visited and `ahead` have not. The latter are pending, in order, and
before the nodes that are to be visited once more. The outputs of visited nodes follow from their
inputs, and the inputs of those that are not pending follow from the outputs. -/
structure Consistent (seen ahead : List N) (s : Snapshot N F) : Prop where
  nodes_eq : eqs.nodes = seen ++ ahead
  faithful : s.work.Faithful
  queue_eq : ∃ again, s.work.queue = ahead ++ again ∧ again ⊆ seen
  applied : ∀ n ∈ seen, s.output n = eqs.transfer n (s.input n)
  gathered : ∀ n ∈ seen, n ∉ s.work.queue → s.input n = eqs.gather s.output n

namespace Consistent

variable {eqs} {seen ahead : List N} {s : Snapshot N F} {n : N} {rest : WorkList N}

theorem mem_nodes_of_seen (h : eqs.Consistent seen ahead s) (hn : n ∈ seen) : n ∈ eqs.nodes :=
  h.nodes_eq ▸ List.mem_append_left ahead hn

variable [DecidableEq N]

/-- All nodes wait for their first visit. -/
theorem start (loc : eqs.Local) (input output : N → F) :
    eqs.Consistent [] eqs.nodes ⟨input, output, .ofList eqs.nodes⟩ := by
  refine ⟨rfl, WorkList.faithful_ofList _, ⟨[], ?_, List.nil_subset _⟩, ?_, ?_⟩
  · show (WorkList.ofList eqs.nodes).queue = eqs.nodes ++ []
    rw [WorkList.queue_ofList, distinct_of_nodup loc.nodup, List.append_nil]
  · intro n hn
    exact absurd hn List.not_mem_nil
  · intro n hn
    exact absurd hn List.not_mem_nil

/-- The node that is taken next: the first one that has not been visited, or, when all have been,
one to be visited once more. -/
theorem turn (loc : eqs.Local) (h : eqs.Consistent seen ahead s)
    (taken : s.work.poll? = some (n, rest)) :
    (ahead = [] ∧ n ∈ seen ∧ rest.queue ⊆ seen) ∨
      ∃ later again, ahead = n :: later ∧ n ∉ seen ∧ rest.queue = later ++ again ∧
        again ⊆ seen := by
  obtain ⟨front, -⟩ := h.faithful.poll taken
  obtain ⟨again, hqueue, hagain⟩ := h.queue_eq
  rw [front] at hqueue
  cases hahead : ahead with
  | nil =>
    rw [hahead, List.nil_append] at hqueue
    refine Or.inl ⟨rfl, hagain (hqueue ▸ List.mem_cons_self), ?_⟩
    intro m hm
    exact hagain (hqueue ▸ List.mem_cons_of_mem n hm)
  | cons t later =>
    rw [hahead, List.cons_append, List.cons.injEq] at hqueue
    obtain ⟨rfl, hrest⟩ := hqueue
    have nodup : (seen ++ n :: later).Nodup := by
      rw [← hahead, ← h.nodes_eq]
      exact loc.nodup
    have new : n ∉ seen := fun hn => (List.nodup_append.mp nodup).2.2 n hn n List.mem_cons_self rfl
    exact Or.inr ⟨later, again, rfl, new, hrest, hagain⟩

theorem mem_nodes (loc : eqs.Local) (h : eqs.Consistent seen ahead s)
    (taken : s.work.poll? = some (n, rest)) : n ∈ eqs.nodes := by
  rcases h.turn loc taken with ⟨-, hn, -⟩ | ⟨later, again, rfl, -⟩
  · exact h.mem_nodes_of_seen hn
  · rw [h.nodes_eq]
    exact List.mem_append_right _ List.mem_cons_self

/-- The nodes that have been visited after the turn, and those that have not. -/
theorem nodes_eq_of_turn (loc : eqs.Local) (h : eqs.Consistent seen ahead s)
    (taken : s.work.poll? = some (n, rest)) :
    eqs.nodes = adjoin seen n ++ ahead.tail ∧
      ∃ again, rest.queue = ahead.tail ++ again ∧ again ⊆ adjoin seen n := by
  have grows : seen ⊆ adjoin seen n := fun m hm => mem_adjoin.mpr (Or.inl hm)
  rcases h.turn loc taken with ⟨rfl, hn, hrest⟩ | ⟨later, again, rfl, hn, hrest, hagain⟩
  · refine ⟨?_, rest.queue, rfl, fun m hm => grows (hrest hm)⟩
    rw [adjoin_of_mem hn, h.nodes_eq]
    rfl
  · refine ⟨?_, again, hrest, fun m hm => grows (hagain hm)⟩
    rw [adjoin_of_not_mem hn, h.nodes_eq]
    simp

/-- When nothing is pending, all nodes have been visited, and all equations hold. -/
theorem solved (h : eqs.Consistent seen ahead s) (rest : s.work.poll? = none) :
    ahead = [] ∧ eqs.Solved s.input s.output := by
  have empty := WorkList.poll?_eq_none.mp rest
  obtain ⟨again, hqueue, -⟩ := h.queue_eq
  rw [empty] at hqueue
  have visited : ahead = [] := (List.append_eq_nil_iff.mp hqueue.symm).1
  refine ⟨visited, ?_⟩
  intro n hn
  rw [h.nodes_eq, visited, List.append_nil] at hn
  refine ⟨h.gathered n hn ?_, h.applied n hn⟩
  rw [empty]
  exact List.not_mem_nil

end Consistent

/-! ### Visits -/

variable [DecidableEq N] [DecidableEq F]

/-- A visit of a node that has been taken from the worklist. -/
def visit (s : Snapshot N F) (n : N) (rest : WorkList N) : Snapshot N F where
  input := Function.update s.input n (eqs.gather s.output n)
  output := Function.update s.output n (eqs.transfer n (eqs.gather s.output n))
  work :=
    if eqs.transfer n (eqs.gather s.output n) ≠ s.output n then rest.addAll (eqs.succs n) else rest

/-- A run: visits until none is due. -/
inductive Settles : Snapshot N F → Snapshot N F → Prop where
  | done {s : Snapshot N F} (h : s.work.poll? = none) : Settles s s
  | visit {s s' : Snapshot N F} {n : N} {rest : WorkList N} (h : s.work.poll? = some (n, rest))
      (later : Settles (eqs.visit s n rest) s') : Settles s s'

section Visit

variable {eqs} {s : Snapshot N F} {n : N} {rest : WorkList N}

theorem output_visit_self :
    (eqs.visit s n rest).output n = eqs.transfer n (eqs.gather s.output n) :=
  Function.update_self ..

theorem input_visit_self : (eqs.visit s n rest).input n = eqs.gather s.output n :=
  Function.update_self ..

theorem output_visit_of_ne {m : N} (h : m ≠ n) : (eqs.visit s n rest).output m = s.output m :=
  Function.update_of_ne h ..

theorem input_visit_of_ne {m : N} (h : m ≠ n) : (eqs.visit s n rest).input m = s.input m :=
  Function.update_of_ne h ..

/-- A visit that changes no output leaves the rest of the worklist. -/
theorem visit_of_eq (h : eqs.transfer n (eqs.gather s.output n) = s.output n) :
    (eqs.visit s n rest).output = s.output ∧ (eqs.visit s n rest).work = rest := by
  refine ⟨?_, if_neg (not_not.mpr h)⟩
  show Function.update s.output n _ = s.output
  rw [h]
  exact Function.update_eq_self n s.output

/-- A visit only adds to the worklist: successors that are not pending. -/
theorem work_visit (faithful : rest.Faithful) :
    (eqs.visit s n rest).work.Faithful ∧
      ∃ added, (eqs.visit s n rest).work.queue = rest.queue ++ added ∧
        ∀ m ∈ added, m ∈ eqs.succs n ∧ m ∉ rest.queue := by
  by_cases changed : eqs.transfer n (eqs.gather s.output n) ≠ s.output n
  · rw [visit, if_pos changed, faithful.queue_addAll]
    exact ⟨faithful.addAll _, exists_adjoinAll_eq_append _ _⟩
  · rw [(visit_of_eq (not_not.mp changed)).2]
    exact ⟨faithful, [], (List.append_nil _).symm, fun m hm => absurd hm List.not_mem_nil⟩

/-- After a visit, only nodes that are pending have something new to gather. -/
theorem gather_visit (loc : eqs.Local) (faithful : rest.Faithful) {m : N}
    (h : m ∉ (eqs.visit s n rest).work.queue) :
    eqs.gather (eqs.visit s n rest).output m = eqs.gather s.output m := by
  by_cases changed : eqs.transfer n (eqs.gather s.output n) ≠ s.output n
  · have other : m ∉ eqs.succs n := by
      intro hm
      refine h ?_
      rw [visit, if_pos changed, faithful.queue_addAll]
      exact mem_adjoinAll.mpr (Or.inr hm)
    refine loc.gather_congr m _ _ fun k hk => ?_
    have hkn : k ≠ n := fun e => other (e ▸ hk)
    exact output_visit_of_ne hkn
  · rw [(visit_of_eq (not_not.mp changed)).1]

end Visit

/-- **A visit keeps the invariant.** -/
theorem Consistent.visit {eqs : Equations N F} {seen ahead : List N} {s : Snapshot N F} {n : N}
    {rest : WorkList N} (loc : eqs.Local) (h : eqs.Consistent seen ahead s)
    (taken : s.work.poll? = some (n, rest)) :
    eqs.Consistent (adjoin seen n) ahead.tail (eqs.visit s n rest) := by
  obtain ⟨front, faithful⟩ := h.faithful.poll taken
  obtain ⟨nodes, again, hrest, hagain⟩ := h.nodes_eq_of_turn loc taken
  obtain ⟨faithful', added, hqueue, hadded⟩ := eqs.work_visit (s := s) (n := n) faithful
  refine ⟨nodes, faithful', ⟨again ++ added, ?_, List.append_subset.mpr ⟨hagain, ?_⟩⟩, ?_, ?_⟩
  · rw [hqueue, hrest, List.append_assoc]
  · -- what is added is a node that was not pending, and all that is ahead was pending
    intro m hm
    obtain ⟨hsucc, hnew⟩ := hadded m hm
    have hnode : m ∈ adjoin seen n ++ ahead.tail := nodes ▸ (loc.ends n m hsucc).2
    refine (List.mem_append.mp hnode).resolve_right fun htail => hnew ?_
    rw [hrest]
    exact List.mem_append_left _ htail
  · intro m hm
    by_cases hmn : m = n
    · rw [hmn, output_visit_self, input_visit_self]
    · rw [output_visit_of_ne hmn, input_visit_of_ne hmn]
      exact h.applied m ((mem_adjoin.mp hm).resolve_right hmn)
  · intro m hm hpending
    rw [gather_visit loc faithful hpending]
    by_cases hmn : m = n
    · rw [hmn, input_visit_self]
    · rw [input_visit_of_ne hmn]
      refine h.gathered m ((mem_adjoin.mp hm).resolve_right hmn) ?_
      rw [front, List.mem_cons, not_or]
      rw [hqueue, List.mem_append, not_or] at hpending
      exact ⟨hmn, hpending.1⟩

end Equations

/-! ### Computations that may fail -/

theorem bind_eq_ok {α β : Type} {x : Except Fault α} {f : α → Except Fault β} {b : β} :
    x >>= f = .ok b ↔ ∃ a, x = .ok a ∧ f a = .ok b := by
  cases x with
  | error fault => exact iff_of_false (fun h => nomatch h) fun ⟨a, h, _⟩ => nomatch h
  | ok a => exact ⟨fun h => ⟨a, rfl, h⟩, fun ⟨a', h, h'⟩ => Except.ok.inj h ▸ h'⟩

/-- A fold whose steps all give something gives something. -/
theorem foldlM_eq_ok {α β : Type} {step : β → α → Except Fault β} {f : β → α → β} {xs : List α}
    (h : ∀ x ∈ xs, ∀ b, step b x = .ok (f b x)) (b : β) :
    xs.foldlM step b = .ok (xs.foldl f b) := by
  induction xs generalizing b with
  | nil => rfl
  | cons x xs ih =>
    rw [List.foldlM_cons, h x List.mem_cons_self, List.foldl_cons]
    exact ih (fun y hy => h y (List.mem_cons_of_mem x hy)) (f b x)

theorem mapM_eq_ok {α β : Type} {f : α → Except Fault β} {g : α → β} {xs : List α}
    (h : ∀ x ∈ xs, f x = .ok (g x)) : xs.mapM f = .ok (xs.map g) := by
  induction xs with
  | nil => rfl
  | cons x xs ih =>
    rw [List.mapM_cons, h x List.mem_cons_self, ih fun y hy => h y (List.mem_cons_of_mem x hy)]
    rfl

/-! ### Engines -/

section Engines

variable {N F : Type} [DecidableEq N]

/-- The tables of an engine at work show the facts of a snapshot, and are `Valid`. -/
structure Shows (eqs : Equations N F) (Valid : Facts N F → Prop) (st : Progress N F)
    (s : Snapshot N F) : Prop where
  valid : Valid st.facts
  input : ∀ n ∈ eqs.nodes, st.facts.input.get? n = some (s.input n)
  output : ∀ n ∈ eqs.nodes, st.facts.output.get? n = some (s.output n)
  work : st.work = s.work

/-- An engine makes the visits of a system of equations, as long as its tables have the facts of all
nodes and are `Valid`. -/
structure Engine.Implements (e : Engine N F) (eqs : Equations N F) (Valid : Facts N F → Prop) :
    Prop where
  gather : ∀ facts output, Valid facts →
    (∀ n ∈ eqs.nodes, facts.output.get? n = some (output n)) →
    ∀ n ∈ eqs.nodes, e.gather facts n = .ok (eqs.gather output n)
  transfer : ∀ n x, e.transfer n x = .ok (eqs.transfer n x)
  succs : ∀ n, e.succs n = eqs.succs n
  valid : ∀ facts output n x, Valid facts → Valid (facts.set n (eqs.gather output n) x)

variable [DecidableEq F]

namespace Engine

variable {e : Engine N F} {st : Progress N F}

theorem run_of_done (h : st.work.poll? = none) (limit : Nat) : e.run limit st = .ok st := by
  have done : st.isDone = true := by
    rw [Progress.isDone, WorkList.poll?_eq_none.mp h]
    rfl
  cases limit <;> rw [Engine.run, if_pos done]

theorem run_of_step {n : N} {rest : WorkList N} (taken : st.work.poll? = some (n, rest))
    {st' : Progress N F} (h : e.step st = .ok st') (limit : Nat) :
    e.run (limit + 1) st = e.run limit st' := by
  have busy : ¬ st.isDone = true := by
    intro done
    rw [Progress.isDone, List.isEmpty_iff] at done
    rw [WorkList.poll?_eq_none.mpr done] at taken
    contradiction
  rw [Engine.run, if_neg busy, h]
  rfl

/-- A run that ends within some number of visits ends the same within more. -/
theorem run_mono {k l : Nat} (hkl : k ≤ l) {st' : Progress N F} (h : e.run k st = .ok st') :
    e.run l st = .ok st' := by
  induction k generalizing l st with
  | zero =>
    rw [Engine.run] at h
    split at h
    · next done => cases l <;> rw [Engine.run, if_pos done, ← h]
    · contradiction
  | succ k ih =>
    obtain ⟨l, rfl⟩ : ∃ i, l = i + 1 := ⟨l - 1, by omega⟩
    rw [Engine.run] at h ⊢
    split at h
    · next done => rw [if_pos done, h]
    · next busy =>
      rw [if_neg busy]
      cases first : e.step st with
      | error fault =>
        rw [first] at h
        contradiction
      | ok next =>
        rw [first] at h
        exact ih (by omega) h

end Engine

namespace Engine.Implements

variable {e : Engine N F} {eqs : Equations N F} {Valid : Facts N F → Prop}

/-- A visit by an engine is a visit of its equations, and the engine notes whether the output has
changed. -/
theorem visit (impl : e.Implements eqs Valid) {st : Progress N F} {s : Snapshot N F}
    (now : Shows eqs Valid st s) {n : N} (hn : n ∈ eqs.nodes) (rest : WorkList N) :
    ∃ st', e.visit st n rest = .ok st' ∧ Shows eqs Valid st' (eqs.visit s n rest) ∧
      st'.visits = (n, decide (eqs.transfer n (eqs.gather s.output n) ≠ s.output n)) ::
        st.visits := by
  have gathered := impl.gather st.facts s.output now.valid now.output n hn
  have old : st.facts.outputAt n = .ok (s.output n) := by
    rw [Facts.outputAt, now.output n hn]
    rfl
  -- the tables change at the visited node only, like the snapshot
  have updated : ∀ (t : Table N F) (f : N → F) (x : F), (∀ m ∈ eqs.nodes, t.get? m = some (f m)) →
      ∀ m ∈ eqs.nodes, (t.set n x).get? m = some (Function.update f n x m) := by
    intro t f x ht m hm
    rw [Table.get?_set, Function.update_apply]
    split
    · rfl
    · exact ht m hm
  refine ⟨⟨st.facts.set n (eqs.gather s.output n) (eqs.transfer n (eqs.gather s.output n)),
    (eqs.visit s n rest).work,
    (n, decide (eqs.transfer n (eqs.gather s.output n) ≠ s.output n)) :: st.visits⟩, ?_,
    ⟨impl.valid _ _ _ _ now.valid, updated _ _ _ now.input, updated _ _ _ now.output, rfl⟩, rfl⟩
  simp only [Engine.visit, gathered, impl.transfer, old, impl.succs, decide_eq_true_eq, bind,
    Except.bind, pure, Except.pure, Equations.visit]

/-- One step of an engine is one visit. -/
theorem step (impl : e.Implements eqs Valid) {st : Progress N F} {s : Snapshot N F}
    (now : Shows eqs Valid st s) {n : N} {rest : WorkList N}
    (taken : s.work.poll? = some (n, rest)) (hn : n ∈ eqs.nodes) :
    ∃ st', e.step st = .ok st' ∧ Shows eqs Valid st' (eqs.visit s n rest) ∧
      st'.visits = (n, decide (eqs.transfer n (eqs.gather s.output n) ≠ s.output n)) ::
        st.visits := by
  rw [Engine.step, now.work, taken]
  exact impl.visit now hn rest

/-- **An engine makes the runs of its equations**, if it may make enough visits. -/
theorem run (impl : e.Implements eqs Valid) (loc : eqs.Local) {s s' : Snapshot N F}
    (settles : eqs.Settles s s') : ∀ {seen ahead : List N}, eqs.Consistent seen ahead s →
      ∀ {st : Progress N F}, Shows eqs Valid st s →
        ∃ visits st', (∀ limit, visits ≤ limit → e.run limit st = .ok st') ∧
          Shows eqs Valid st' s' := by
  induction settles with
  | done h =>
    intro seen ahead _ st now
    exact ⟨0, st, fun limit _ => run_of_done (now.work ▸ h) limit, now⟩
  | visit taken _ ih =>
    intro seen ahead consistent st now
    obtain ⟨st', step, next, -⟩ := impl.step now taken (consistent.mem_nodes loc taken)
    obtain ⟨visits, st'', run, final⟩ := ih (consistent.visit loc taken) next
    refine ⟨visits + 1, st'', ?_, final⟩
    intro limit hlimit
    obtain ⟨limit, rfl⟩ : ∃ k, limit = k + 1 := ⟨limit - 1, by omega⟩
    rw [run_of_step (now.work ▸ taken) step]
    exact run limit (by omega)

end Engine.Implements

end Engines

end StaticAnalysis.Dataflow
