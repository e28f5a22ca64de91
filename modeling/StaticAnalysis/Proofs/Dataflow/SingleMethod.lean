import StaticAnalysis.Proofs.Dataflow.Stability

/-!
# Both solvers agree on a method that calls nothing

A method that is alone in its call graph has an interprocedural graph with the nodes and edges of
its own graph. A forward problem can be solved on either. The two solvers differ in three ways: they
give the entry other facts at first, they compute the input of the entry in other ways, and they put
the facts of predecessors together in other orders.

* `Icfg.edgesOutOf_alone`, `Icfg.edgesInto_alone` — the edges of the interprocedural graph, in
  order.
* `InterProblem.Lifts` — a problem across methods that is a given forward problem inside of them.
* `InterProblem.equations_alone` — the equations are the same. This is where the order of
  predecessors is forgotten, and where nothing may lead to the entry.
* `Equations.next_forgets` — the first visit makes up for what the first node began with.

**Main statement** (`solveInter_alone`): the solvers visit the same nodes in the same order and give
the same facts. Only whether the first visit changes anything is another matter, and nothing depends
on it.
-/

namespace StaticAnalysis

/-! ### Lists -/

section Lists

variable {α β : Type}

theorem flatMap_of_nodup [DecidableEq α] {f : α → List β} {xs : List α} {a : α} (nodup : xs.Nodup)
    (others : ∀ b, b ≠ a → f b = []) : xs.flatMap f = if a ∈ xs then f a else [] := by
  induction xs with
  | nil => rfl
  | cons b xs ih =>
    obtain ⟨new, nodup⟩ := List.nodup_cons.mp nodup
    rw [List.flatMap_cons, ih nodup]
    by_cases hb : b = a
    · subst hb
      rw [if_neg new, if_pos List.mem_cons_self, List.append_nil]
    · have same : a ∈ b :: xs ↔ a ∈ xs := by simp [Ne.symm hb]
      simp only [others b hb, same, List.nil_append]

theorem flatMap_eq_map_filter {f : α → List β} {g : α → β} {p : α → Bool} {xs : List α}
    (h : ∀ a, f a = if p a then [g a] else []) : xs.flatMap f = (xs.filter p).map g := by
  induction xs with
  | nil => rfl
  | cons a xs ih =>
    rw [List.flatMap_cons, h, ih, List.filter_cons]
    split <;> rfl

end Lists

/-! ### The graph of a method on its own -/

/-- The call graph of one method, which is its entry and calls nothing. -/
def CallGraph.alone (m : Method) : CallGraph Stmt Method := { entries := [m], reachable := [m] }

namespace Icfg

variable {N M : Type} [DecidableEq N] [DecidableEq M] {m : M} {cfgOf : M → Cfg N}

theorem build_alone (m : Method) (cfgOf : Method → Cfg Node) :
    build (.alone m) cfgOf = link [m] cfgOf (fun _ => []) { entries := [m] } := by
  have quiet : calleesAt (.alone m) = fun _ => [] := by
    funext n
    cases n with
    | stmt s =>
      have none : sortBy bySignature ((CallGraph.alone m).calleesOf s) = [] := List.mergeSort_nil
      rw [calleesAt, none, ite_self]
    | entry m => rfl
    | exit m => rfl
  have single : sortBy bySignature [m] = [m] := List.mergeSort_singleton m
  rw [build_eq, quiet, CallGraph.alone, single]

theorem nodes_alone (h : (cfgOf m).Coherent) :
    (link [m] cfgOf (fun _ => []) { entries := [m] }).nodes = (cfgOf m).nodes := by
  rw [nodes_link, List.flatMap_singleton, distinct_of_nodup h.nodup]

theorem links_alone : links [m] [m] cfgOf (fun _ => []) =
    (cfgOf m).nodes.flatMap fun a =>
      ((cfgOf m).succsOf a).map fun b => ⟨.normal, a, b, none, none⟩ := by
  simp [links, get?_cfgs_joined, linksOf]

theorem edgesOutOf_alone (h : (cfgOf m).Coherent) (n : N) :
    (link [m] cfgOf (fun _ => []) { entries := [m] }).edgesOutOf n =
      ((cfgOf m).succsOf n).map fun b => ⟨.normal, n, b, none, none⟩ := by
  rw [link_eq, edgesOutOf_foldl_addEdge, (edges_joined n).1, List.nil_append, links_alone,
    List.filter_flatMap, flatMap_of_nodup (a := n) h.nodup]
  · by_cases hn : n ∈ (cfgOf m).nodes
    · simp [hn]
    · have none : (cfgOf m).succsOf n = [] :=
        List.eq_nil_iff_forall_not_mem.mpr fun b hb => hn (h.ends n b hb).1
      simp [none]
  · intro a ha
    simp [ha]

/-- The edges that enter a node come in the order of their sources, not in the order in which they
were added. -/
theorem edgesInto_alone (h : (cfgOf m).Built) (n : N) :
    (link [m] cfgOf (fun _ => []) { entries := [m] }).edgesInto n =
      ((cfgOf m).nodes.filter fun a => decide (n ∈ (cfgOf m).succsOf a)).map
        fun a => ⟨.normal, a, n, none, none⟩ := by
  rw [link_eq, edgesInto_foldl_addEdge, (edges_joined n).2, List.nil_append, links_alone,
    List.filter_flatMap]
  refine flatMap_eq_map_filter fun a => ?_
  rw [List.filter_map]
  show List.map _ (List.filter (fun b => decide (b = n)) _) = _
  rw [List.filter_eq, (h.nodup_edges a).1.count]
  by_cases hn : n ∈ (cfgOf m).succsOf a <;> simp [hn]

theorem succsOf_alone (h : (cfgOf m).Built) (n : N) :
    (link [m] cfgOf (fun _ => []) { entries := [m] }).succsOf n = (cfgOf m).succsOf n := by
  have targets : ((cfgOf m).succsOf n).map (IcfgEdge.target ∘
      fun b => (⟨.normal, n, b, none, none⟩ : IcfgEdge N M)) = (cfgOf m).succsOf n := List.map_id _
  rw [succsOf, edgesOutOf_alone h.coherent, List.map_map, targets,
    distinct_of_nodup (h.nodup_edges n).1]

theorem entryNodes_alone (name : M → String) :
    (link [m] cfgOf (fun _ => []) { entries := [m] }).entryNodes name = .ok [(cfgOf m).entry] := by
  unfold entryNodes
  rw [entries_link]
  refine congrArg (distinct <$> ·)
    (Dataflow.mapM_eq_ok (g := fun m => (cfgOf m).entry) fun m' hm' => ?_)
  rw [entryOf?_link, if_pos hm']

end Icfg

/-- The predecessors of a node, up to their order. -/
theorem Cfg.Built.predsOf_perm {N : Type} [DecidableEq N] {g : Cfg N} (h : g.Built) (n : N) :
    (g.nodes.filter fun a => decide (n ∈ g.succsOf a)).Perm (g.predsOf n) := by
  refine (List.perm_ext_iff_of_nodup (h.coherent.nodup.filter _) (h.nodup_edges n).2).mpr ?_
  intro a
  rw [List.mem_filter, decide_eq_true_eq, ← h.coherent.mem_succsOf]
  exact ⟨And.right, fun edge => ⟨(h.coherent.ends a n edge).1, edge⟩⟩

namespace Dataflow

variable {N M F : Type} [DecidableEq N]

/-! ### The same equations -/

omit [DecidableEq N] in
/-- Facts may be put together in any order. -/
theorem Problem.foldl_meet_perm (p : Problem N F) (comm : ∀ a b, p.meet a b = p.meet b a)
    (assoc : ∀ a b c, p.meet (p.meet a b) c = p.meet a (p.meet b c)) (output : N → F)
    {as bs : List N} (perm : as.Perm bs) (x : F) :
    as.foldl (fun f a => p.meet f (output a)) x = bs.foldl (fun f a => p.meet f (output a)) x := by
  have _ : RightCommutative fun f a => p.meet f (output a) := ⟨fun f a b => by
    rw [assoc, comm (output a), ← assoc]⟩
  exact perm.foldl_eq x

/-- Inside a method with this entry, a problem across methods is a given problem. -/
structure InterProblem.Lifts (q : InterProblem N M F) (p : Problem N F) (entry : N) : Prop where
  boundary : q.boundary entry = p.boundary
  initial : q.initial = p.initial
  meet : q.meet = p.meet
  transfer : q.transferNode = p.transfer
  normal : ∀ e, e.kind = .normal → ∀ x, q.transferEdge e x = x

namespace InterProblem

variable {q : InterProblem N M F} {p : Problem N F}

theorem Lifts.first_eq {entry : N} (lifts : q.Lifts p entry) (n : N) :
    q.first [entry] n = if n = entry then p.boundary else p.initial := by
  simp only [first, List.mem_singleton]
  split
  · next h => rw [h, lifts.boundary]
  · exact lifts.initial

variable [DecidableEq M]

/-- The equations across methods are those of the method. -/
theorem equations_alone {m : M} {cfgOf : M → Cfg N} (built : (cfgOf m).Built)
    (source : (cfgOf m).predsOf (cfgOf m).entry = []) (comm : ∀ a b, p.meet a b = p.meet b a)
    (assoc : ∀ a b c, p.meet (p.meet a b) c = p.meet a (p.meet b c))
    (lifts : q.Lifts p (cfgOf m).entry) :
    q.equations (.link [m] cfgOf (fun _ => []) { entries := [m] }) [(cfgOf m).entry] =
      p.equations (cfgOf m) := by
  unfold equations Problem.equations
  rw [Equations.mk.injEq]
  refine ⟨Icfg.nodes_alone built.coherent, ?_, lifts.transfer, funext (Icfg.succsOf_alone built)⟩
  funext output n
  have along : ∀ f a, q.meet f (q.transferEdge ⟨.normal, a, n, none, none⟩ (output a)) =
      p.meet f (output a) := by
    intro f a
    rw [lifts.normal _ rfl, lifts.meet]
  rw [Icfg.edgesInto_alone built, List.foldl_map, lifts.first_eq]
  simp only [along]
  rw [p.foldl_meet_perm comm assoc output (built.predsOf_perm n)]
  split
  · next h =>
    rw [h, source]
    rfl
  · rfl

end InterProblem

/-! ### The same visits -/

variable [DecidableEq F]

/-- After the first visit, it does not matter what the first node gave out before, if it does not
lead to itself. Whether the visit has changed its output does not matter either, since all its
successors are pending anyway. -/
theorem Equations.next_forgets {eqs : Equations N F} (loc : eqs.Local) {n : N} {later : List N}
    (nodes : eqs.nodes = n :: later) (self : n ∉ eqs.succs n) (input : N → F)
    {output output' : N → F} (same : ∀ m, m ≠ n → output m = output' m) :
    eqs.next ⟨input, output, .ofList eqs.nodes⟩ = eqs.next ⟨input, output', .ofList eqs.nodes⟩ := by
  have queue : (WorkList.ofList eqs.nodes).queue = n :: later := by
    rw [WorkList.queue_ofList, distinct_of_nodup loc.nodup, nodes]
  cases taken : (WorkList.ofList eqs.nodes).poll? with
  | none =>
    rw [WorkList.poll?_eq_none.mp taken] at queue
    exact absurd queue (List.cons_ne_nil n later).symm
  | some turn =>
    obtain ⟨a, rest⟩ := turn
    obtain ⟨front, faithful⟩ := (WorkList.faithful_ofList eqs.nodes).poll taken
    rw [queue, List.cons.injEq] at front
    obtain ⟨rfl, rfl⟩ := front
    have gathered : eqs.gather output n = eqs.gather output' n :=
      loc.gather_congr n _ _ fun m hm => same m fun e => self (e ▸ hm)
    have outputs : ∀ x, Function.update output n x = Function.update output' n x := by
      intro x
      funext m
      rw [Function.update_apply, Function.update_apply]
      split
      · rfl
      · next hm => exact same m hm
    have pending : rest.addAll (eqs.succs n) = rest := by
      refine WorkList.addAll_of_pending fun m hm => (faithful.mem_pending m).mpr ?_
      have node := (loc.ends n m hm).2
      rw [nodes, List.mem_cons] at node
      exact node.resolve_left fun e => self (e ▸ hm)
    rw [next_of_some taken, next_of_some taken]
    simp only [Equations.visit, gathered, outputs, pending, ite_self]

/-- Two engines of the same equations stay together, if they begin with the same nodes before them
and the first visit leads both to the same snapshot. -/
theorem Engine.Implements.advance_together {e e' : Engine N F} {eqs : Equations N F}
    {Valid Valid' : Facts N F → Prop} (impl : e.Implements eqs Valid)
    (impl' : e'.Implements eqs Valid') (loc : eqs.Local) (nonempty : eqs.nodes ≠ [])
    {st st' : Progress N F} {input output output' : N → F}
    (shown : Shows eqs Valid st ⟨input, output, .ofList eqs.nodes⟩)
    (shown' : Shows eqs Valid' st' ⟨input, output', .ofList eqs.nodes⟩)
    (visits : st.visits = st'.visits)
    (meet : eqs.next ⟨input, output, .ofList eqs.nodes⟩ =
      eqs.next ⟨input, output', .ofList eqs.nodes⟩)
    (k : Nat) :
    ∃ final final', e.advance k st = .ok final ∧ e'.advance k st' = .ok final' ∧
      final.visits.map Prod.fst = final'.visits.map Prod.fst ∧ final.isDone = final'.isDone ∧
      (final.isDone = true → ∀ n ∈ eqs.nodes, ∃ input output,
        final.facts.input.get? n = some input ∧ final'.facts.input.get? n = some input ∧
        final.facts.output.get? n = some output ∧ final'.facts.output.get? n = some output) := by
  obtain ⟨final, advance, now, -, visited⟩ := impl.advance loc (.start loc _ _) shown k
  obtain ⟨final', advance', now', -, visited'⟩ := impl'.advance loc (.start loc _ _) shown' k
  refine ⟨final, final', advance, advance', ?_⟩
  rw [visited, visited', visits, Progress.isDone, Progress.isDone, now.work, now'.work]
  cases k with
  | zero =>
    refine ⟨rfl, rfl, fun done => absurd (List.isEmpty_iff.mp done) ?_⟩
    show (WorkList.ofList eqs.nodes).queue ≠ []
    rw [WorkList.queue_ofList, distinct_of_nodup loc.nodup]
    exact nonempty
  | succ k =>
    rw [Function.iterate_succ_apply, meet] at now
    rw [Function.iterate_succ_apply] at now'
    rw [Function.iterate_succ_apply, Function.iterate_succ_apply, Equations.visited,
      Equations.visited, meet]
    exact ⟨rfl, rfl, fun _ n hn => ⟨_, _, now.input n hn, now'.input n hn, now.output n hn,
      now'.output n hn⟩⟩

omit [DecidableEq F] in
theorem Solver.visits_start {g : Cfg N} {p : Problem N F} {st : Progress N F}
    (started : Solver.start g (.ofProblem p) = .ok st) : st.visits = [] := by
  cases started
  rfl

omit [DecidableEq F] in
theorem InterSolver.visits_start {g : Icfg N M} {entries : List N} {p : InterPolicy N M F}
    {st : Progress N F} (started : InterSolver.start g entries p = .ok st) : st.visits = [] := by
  obtain ⟨facts, -, started⟩ := bind_eq_ok.mp started
  cases started
  rfl

/-- On a method that calls nothing, the engines of both solvers make the same visits, and have the
same facts when they are done. -/
theorem engines_alone (m : Method) (cfgOf : Method → Cfg Node) (built : (cfgOf m).Built)
    (source : (cfgOf m).predsOf (cfgOf m).entry = []) (p : Problem Node F)
    (comm : ∀ a b, p.meet a b = p.meet b a)
    (assoc : ∀ a b c, p.meet (p.meet a b) c = p.meet a (p.meet b c))
    (q : InterProblem Node Method F) (lifts : q.Lifts p (cfgOf m).entry) :
    let g := cfgOf m
    let icfg := Icfg.build (.alone m) cfgOf
    ∃ st st', Solver.start g (.ofProblem p) = .ok st ∧
      InterSolver.start icfg [g.entry] (.ofProblem q) = .ok st' ∧
      ∀ k, ∃ now now', (Solver.engine g (.ofProblem p)).advance k st = .ok now ∧
        (InterSolver.engine icfg [g.entry] (.ofProblem q)).advance k st' = .ok now' ∧
        now.visits.map Prod.fst = now'.visits.map Prod.fst ∧ now.isDone = now'.isDone ∧
        (now.isDone = true → ∀ n ∈ g.nodes, ∃ input output,
          now.facts.input.get? n = some input ∧ now'.facts.input.get? n = some input ∧
          now.facts.output.get? n = some output ∧ now'.facts.output.get? n = some output) := by
  intro g icfg
  have linked : icfg = .link [m] cfgOf (fun _ => []) { entries := [m] } := Icfg.build_alone m cfgOf
  have h : icfg.Coherent := linked ▸ Icfg.coherent_link fun m' hm' =>
    List.mem_singleton.mp hm' ▸ built.coherent
  have equations : q.equations icfg [g.entry] = p.equations g :=
    linked ▸ q.equations_alone built source comm assoc lifts
  obtain ⟨st, started, shown⟩ := Solver.start_eq g p
  obtain ⟨st', started', shown'⟩ := InterSolver.start_eq icfg [g.entry] q
  have impl := Solver.implements g p built.coherent
  have impl' := InterSolver.implements icfg [g.entry] q h
  have nodes : icfg.nodes = g.nodes := congrArg Equations.nodes equations
  have first : q.first [g.entry] = fun n => if n = g.entry then p.boundary else p.initial :=
    funext lifts.first_eq
  rw [equations] at impl'
  rw [equations, nodes, first] at shown'
  -- the entry is visited first, and nothing leads back to it
  obtain ⟨later, cons⟩ := built.nodes_eq_cons
  have self : g.entry ∉ g.succsOf g.entry := by
    rw [built.coherent.mem_succsOf, source]
    exact List.not_mem_nil
  have nonempty : g.nodes ≠ [] := by
    rw [cons]
    exact List.cons_ne_nil _ _
  have loc := p.equations_local built.coherent
  exact ⟨st, st', started, started', impl.advance_together impl' loc nonempty shown shown'
    ((Solver.visits_start started).trans (InterSolver.visits_start started').symm)
    (Equations.next_forgets loc cons self _ fun n hn => (if_neg hn).symm)⟩

/-- **On a method that calls nothing, both solvers do the same.** Take a method that is alone in its
call graph, with a graph that was built by the operations and in which nothing leads to the entry.
Take a forward problem whose meet is commutative and associative, and a problem across methods that
is the same inside the method. Nothing is asked of the transfers.

After any number of visits, both solvers have visited the same nodes in the same order, and both or
none of them are done. Within any number of visits, either both do not come to an end, or both give
the same facts on both sides of every node. -/
theorem solveInter_alone (m : Method) (cfgOf : Method → Cfg Node) (built : (cfgOf m).Built)
    (source : (cfgOf m).predsOf (cfgOf m).entry = []) (p : Problem Node F)
    (forward : p.direction = .forward) (comm : ∀ a b, p.meet a b = p.meet b a)
    (assoc : ∀ a b c, p.meet (p.meet a b) c = p.meet a (p.meet b c))
    (q : InterProblem Node Method F) (lifts : q.Lifts p (cfgOf m).entry) (name : Method → String) :
    let g := cfgOf m
    let icfg := Icfg.build (.alone m) cfgOf
    (∃ st st', Solver.start g (.ofProblem p) = .ok st ∧ icfg.entryNodes name = .ok [g.entry] ∧
      InterSolver.start icfg [g.entry] (.ofProblem q) = .ok st' ∧
      ∀ k, ∃ now now', (Solver.engine g (.ofProblem p)).advance k st = .ok now ∧
        (InterSolver.engine icfg [g.entry] (.ofProblem q)).advance k st' = .ok now' ∧
        now.visits.map Prod.fst = now'.visits.map Prod.fst ∧ now.isDone = now'.isDone) ∧
    ∀ limit,
      (solve limit g (.ofProblem p) = .error .visitLimit ∧
        solveInter name limit icfg (.ofProblem q) = .error .visitLimit) ∨
      ∃ s s', solve limit g (.ofProblem p) = .ok s ∧
        solveInter name limit icfg (.ofProblem q) = .ok s' ∧
        s.trace.map Prod.fst = s'.trace.map Prod.fst ∧
        ∀ n ∈ g.nodes, ∃ before after, s.before n = some before ∧ s'.before n = some before ∧
          s.after n = some after ∧ s'.after n = some after := by
  intro g icfg
  have known : icfg.entryNodes name = .ok [g.entry] := by
    rw [show icfg = _ from Icfg.build_alone m cfgOf]
    exact Icfg.entryNodes_alone name
  obtain ⟨st, st', started, started', together⟩ :=
    engines_alone m cfgOf built source p comm assoc q lifts
  refine ⟨⟨st, st', started, known, started', ?_⟩, ?_⟩
  · intro k
    obtain ⟨now, now', advance, advance', visits, done, -⟩ := together k
    exact ⟨now, now', advance, advance', visits, done⟩
  · intro limit
    obtain ⟨now, now', advance, advance', visits, done, facts⟩ := together limit
    have starts : Solver.start (orient .forward g) (.ofProblem p) = .ok st := started
    rw [solve_eq_run (congrArg Except.ok forward) starts, solveInter_eq_run known started']
    have run : (Solver.engine (orient .forward g) (.ofProblem p)).run limit st = _ :=
      Engine.run_of_advance advance
    rw [run, Engine.run_of_advance advance', ← done]
    by_cases ended : now.isDone = true
    · rw [if_pos ended, if_pos ended]
      refine Or.inr ⟨⟨.forward, g.size, now⟩, ⟨[g.entry], icfg.nodes, now'⟩, rfl, rfl, ?_,
        facts ended⟩
      rw [Solution.trace, InterSolution.trace, List.map_reverse, List.map_reverse, visits]
    · rw [if_neg ended, if_neg ended]
      exact Or.inl ⟨rfl, rfl⟩

namespace Solitary

def call : Node := .stmt Recursion.callAgain

def pause : Node := .stmt ⟨⟨1, Recursion.main⟩, .nop, false⟩

/-- The call leads to itself and round a loop, and lists the way into the loop behind the way
back. -/
def graph : Cfg Node :=
  ((((Cfg.make (.entry Recursion.main) (.exit Recursion.main)).addEdge pause call).addEdge
    (.entry Recursion.main) call).addEdge call pause).addEdge call call
    |>.addEdge pause (.exit Recursion.main)

theorem built : graph.Built :=
  .addEdge (.addEdge (.addEdge (.addEdge (.addEdge (.make _ _) _ _) _ _) _ _) _ _) _ _

/-- Remainders, which are added where ways meet and squared on the way. The entry gives out the
boundary fact again. -/
def squares : Problem Node Nat where
  direction := .forward
  boundary := 5
  initial := 1
  meet x y := (x + y) % 7
  transfer n x := (x * x + if n.isCall then 5 else 1) % 7

/-- The same across methods, where nothing passes. -/
def squaresAcross : InterProblem Node Method Nat where
  boundary _ := 5
  initial := 1
  meet := squares.meet
  transferNode := squares.transfer
  transferEdge e x := if e.kind = .normal then x else 0

theorem lifts : squaresAcross.Lifts squares (.entry Recursion.main) where
  boundary := rfl
  initial := rfl
  meet := rfl
  transfer := rfl
  normal _ h _ := if_pos h

end Solitary

/-- Both solvers end with the same remainders after the same visits. One of them reports that the
first visit changes the output of the entry, and the other does not. -/
theorem solveInter_alone_loop :
    ∃ s s', solve 20 Solitary.graph (.ofProblem Solitary.squares) = .ok s ∧
      solveInter Method.signature 20 (Icfg.build (.alone Recursion.main) fun _ => Solitary.graph)
        (.ofProblem Solitary.squaresAcross) = .ok s' ∧
      s.trace.head? = some (.entry Recursion.main, true) ∧
      s'.trace.head? = some (.entry Recursion.main, false) ∧
      s.trace.map Prod.fst = s'.trace.map Prod.fst ∧
      ∃ after, s.after Solitary.call = some after ∧ s'.after Solitary.call = some after := by
  obtain ⟨s, run, first⟩ : ∃ s, solve 20 Solitary.graph (.ofProblem Solitary.squares) = .ok s ∧
      s.trace.head? = some (.entry Recursion.main, true) := ⟨_, rfl, rfl⟩
  obtain ⟨s', run', first'⟩ : ∃ s', solveInter Method.signature 20
      (Icfg.build (.alone Recursion.main) fun _ => Solitary.graph)
        (.ofProblem Solitary.squaresAcross) = .ok s' ∧
      s'.trace.head? = some (.entry Recursion.main, false) := by
    rw [Icfg.build_alone]
    exact ⟨_, rfl, rfl⟩
  refine ⟨s, s', run, run', first, first', ?_⟩
  have same := solveInter_alone Recursion.main (fun _ => Solitary.graph) Solitary.built rfl
    Solitary.squares rfl
    (fun a b => congrArg (· % 7) (Nat.add_comm a b))
    (fun a b c => by
      show ((a + b) % 7 + c) % 7 = (a + (b + c) % 7) % 7
      omega)
    Solitary.squaresAcross Solitary.lifts Method.signature
  rcases same.2 20 with ⟨outOfVisits, -⟩ | ⟨s₁, s₁', run₁, run₁', visits, facts⟩
  · exact nomatch run.symm.trans outOfVisits
  · obtain rfl : s = s₁ := Except.ok.inj (run.symm.trans run₁)
    obtain rfl : s' = s₁' := Except.ok.inj (run'.symm.trans run₁')
    have node : Solitary.call ∈ Solitary.graph.nodes := by decide
    obtain ⟨before, after, -, -, hafter, hafter'⟩ := facts Solitary.call node
    exact ⟨visits, after, hafter, hafter'⟩

end Dataflow

end StaticAnalysis
