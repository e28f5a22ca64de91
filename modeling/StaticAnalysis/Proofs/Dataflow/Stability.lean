import StaticAnalysis.Proofs.Dataflow.InterMaximalSolution
import StaticAnalysis.Proofs.Dataflow.MaximalSolution

/-!
# What a solver ends with is stable

Nothing at all is asked of meets and transfers here, so that a solver may go on for ever. As far as
it gets, its visits find all facts that they ask for; and if it comes to an end, the equations of
all nodes hold, so that another visit would change nothing.

* `Equations.next`, `Equations.visited` — a run visit by visit: the next snapshot, and the nodes of
  the first visits.
* `Equations.UnderWay` — the snapshots that such a run goes through; `UnderWay.next` is the step.
* `Engine.advance` — the same for engines; `Engine.run_eq_advance` says that a run is as many visits
  as it may make.
* `Engine.Implements.advance` — an engine goes through the snapshots of its equations, at every
  number of visits.
* `Engine.Stable` — visits that change nothing.

**Main statements** (`solve_stable`, `solveInter_stable`): both solvers either run out of visits or
end with facts that satisfy all equations and are stable.
-/

namespace StaticAnalysis.Dataflow

variable {N F : Type} [DecidableEq N] [DecidableEq F]

/-! ### Runs, visit by visit -/

namespace Equations

variable (eqs : Equations N F)

/-- The snapshot after the next visit, if one is due. -/
def next (s : Snapshot N F) : Snapshot N F :=
  match s.work.poll? with
  | none => s
  | some (n, rest) => eqs.visit s n rest

/-- The nodes of the first visits, latest first. -/
def visited : Nat → Snapshot N F → List N
  | 0, _ => []
  | k + 1, s => visited k (eqs.next s) ++ s.work.queue.head?.toList

/-- A snapshot in which only pending nodes may violate their equations. -/
def UnderWay (s : Snapshot N F) : Prop := ∃ seen ahead, eqs.Consistent seen ahead s

variable {eqs} {s : Snapshot N F}

theorem next_of_none (h : s.work.poll? = none) : eqs.next s = s := by
  rw [next, h]

theorem next_of_some {n : N} {rest : WorkList N} (h : s.work.poll? = some (n, rest)) :
    eqs.next s = eqs.visit s n rest := by
  rw [next, h]

omit [DecidableEq F] in
theorem UnderWay.start (loc : eqs.Local) (input output : N → F) :
    eqs.UnderWay ⟨input, output, .ofList eqs.nodes⟩ :=
  ⟨[], eqs.nodes, .start loc input output⟩

theorem UnderWay.next (loc : eqs.Local) (h : eqs.UnderWay s) : eqs.UnderWay (eqs.next s) := by
  obtain ⟨seen, ahead, consistent⟩ := h
  cases taken : s.work.poll? with
  | none =>
    rw [next_of_none taken]
    exact ⟨seen, ahead, consistent⟩
  | some turn =>
    rw [next_of_some taken]
    exact ⟨_, _, consistent.visit loc taken⟩

end Equations

namespace Engine

variable (e : Engine N F)

/-- Makes a number of visits, or fewer if no more are due. -/
def advance : Nat → Progress N F → Except Fault (Progress N F)
  | 0, st => .ok st
  | k + 1, st => e.step st >>= advance k

variable {e} {st : Progress N F}

omit [DecidableEq F] in
theorem isDone_iff : st.isDone = true ↔ st.work.poll? = none := by
  rw [Progress.isDone, List.isEmpty_iff, WorkList.poll?_eq_none]

theorem advance_of_done (h : st.isDone = true) (k : Nat) : e.advance k st = .ok st := by
  have rests : e.step st = .ok st := by
    rw [Engine.step, isDone_iff.mp h]
  induction k with
  | zero => rfl
  | succ k ih =>
    rw [advance, rests]
    exact ih

/-- A run makes as many visits as it may. It is all right if no more are due then. -/
theorem run_eq_advance (limit : Nat) (st : Progress N F) :
    e.run limit st =
      e.advance limit st >>= fun final =>
        if final.isDone then .ok final else .error .visitLimit := by
  induction limit generalizing st with
  | zero => rfl
  | succ limit ih =>
    rw [Engine.run]
    split
    · next done =>
      rw [advance_of_done done]
      exact (if_pos done).symm
    · rw [advance, bind_assoc]
      exact bind_congr ih

theorem run_of_advance {limit : Nat} {final : Progress N F} (h : e.advance limit st = .ok final) :
    e.run limit st = if final.isDone then .ok final else .error .visitLimit := by
  rw [run_eq_advance, h]
  rfl

namespace Implements

variable {eqs : Equations N F} {Valid : Facts N F → Prop} {s : Snapshot N F}

theorem next (impl : e.Implements eqs Valid) (loc : eqs.Local) (under : eqs.UnderWay s)
    (now : Shows eqs Valid st s) :
    ∃ st', e.step st = .ok st' ∧ Shows eqs Valid st' (eqs.next s) ∧
      st'.visits.map Prod.fst = s.work.queue.head?.toList ++ st.visits.map Prod.fst := by
  cases taken : s.work.poll? with
  | none =>
    refine ⟨st, ?_, ?_, ?_⟩
    · rw [Engine.step, now.work, taken]
    · rw [Equations.next_of_none taken]
      exact now
    · rw [WorkList.poll?_eq_none.mp taken]
      rfl
  | some turn =>
    obtain ⟨n, rest⟩ := turn
    obtain ⟨seen, ahead, consistent⟩ := under
    obtain ⟨front, -⟩ := consistent.faithful.poll taken
    obtain ⟨st', step, shown, visits⟩ := impl.step now taken (consistent.mem_nodes loc taken)
    refine ⟨st', step, ?_, ?_⟩
    · rw [Equations.next_of_some taken]
      exact shown
    · rw [visits, front]
      rfl

/-- **An engine goes through the snapshots of its equations.** No visit fails, however many there
are. -/
theorem advance (impl : e.Implements eqs Valid) (loc : eqs.Local) (under : eqs.UnderWay s)
    (now : Shows eqs Valid st s) (k : Nat) :
    ∃ st', e.advance k st = .ok st' ∧ Shows eqs Valid st' (eqs.next^[k] s) ∧
      eqs.UnderWay (eqs.next^[k] s) ∧
      st'.visits.map Prod.fst = eqs.visited k s ++ st.visits.map Prod.fst := by
  induction k generalizing st s with
  | zero => exact ⟨st, rfl, now, under, rfl⟩
  | succ k ih =>
    obtain ⟨st₁, step, shown₁, visits₁⟩ := impl.next loc under now
    obtain ⟨st', advance, shown, under', visits⟩ := ih (under.next loc) shown₁
    refine ⟨st', ?_, shown, under', ?_⟩
    · rw [Engine.advance, step]
      exact advance
    · rw [visits, visits₁, Equations.visited, List.append_assoc]

end Implements

/-! ### Stable facts -/

/-- Another visit of any node finds that its output has not changed, leaves the worklist alone, and
computes the facts that are there. -/
def Stable (e : Engine N F) (nodes : List N) (st : Progress N F) : Prop :=
  ∀ n ∈ nodes, ∀ rest, ∃ st', e.visit st n rest = .ok st' ∧ st'.visits = (n, false) :: st.visits ∧
    st'.work = rest ∧
    ∀ m ∈ nodes, st'.facts.input.get? m = st.facts.input.get? m ∧
      st'.facts.output.get? m = st.facts.output.get? m

namespace Implements

variable {eqs : Equations N F} {Valid : Facts N F → Prop} {s : Snapshot N F}

theorem stable (impl : e.Implements eqs Valid) (now : Shows eqs Valid st s)
    (solved : eqs.Solved s.input s.output) : e.Stable eqs.nodes st := by
  intro n hn rest
  obtain ⟨gathered, applied⟩ := solved n hn
  have same : eqs.transfer n (eqs.gather s.output n) = s.output n := by
    rw [← gathered, ← applied]
  obtain ⟨outputs, work⟩ : (eqs.visit s n rest).output = s.output ∧
      (eqs.visit s n rest).work = rest :=
    Equations.visit_of_eq same
  have inputs : (eqs.visit s n rest).input = s.input := by
    show Function.update s.input n _ = s.input
    rw [← gathered]
    exact Function.update_eq_self n s.input
  obtain ⟨st', visit, shown, visits⟩ := impl.visit now hn rest
  refine ⟨st', visit, ?_, shown.work.trans work, ?_⟩
  · rw [visits, decide_eq_false (not_not.mpr same)]
  · intro m hm
    rw [shown.input m hm, shown.output m hm, now.input m hm, now.output m hm, inputs, outputs]
    exact ⟨rfl, rfl⟩

/-- An engine that has all nodes before it runs out of visits, or ends with stable facts that solve
its equations. -/
theorem run_stable (impl : e.Implements eqs Valid) (loc : eqs.Local) {input output : N → F}
    (shown : Shows eqs Valid st ⟨input, output, .ofList eqs.nodes⟩) (limit : Nat) :
    e.run limit st = .error .visitLimit ∨
      ∃ final input output, e.run limit st = .ok final ∧
        (∀ n ∈ eqs.nodes, final.facts.input.get? n = some (input n) ∧
          final.facts.output.get? n = some (output n)) ∧
        eqs.Solved input output ∧ e.Stable eqs.nodes final := by
  obtain ⟨final, advance, now, ⟨seen, ahead, consistent⟩, -⟩ :=
    impl.advance loc (.start loc input output) shown limit
  rw [run_of_advance advance]
  by_cases done : final.isDone = true
  · have rests := isDone_iff.mp done
    rw [now.work] at rests
    obtain ⟨-, solved⟩ := consistent.solved rests
    exact Or.inr ⟨final, _, _, if_pos done, fun n hn => ⟨now.input n hn, now.output n hn⟩, solved,
      impl.stable now solved⟩
  · exact Or.inl (if_neg done)

end Implements

end Engine

/-! ### One graph -/

/-- A solver that can begin runs then. -/
theorem solve_eq_run {g : Cfg N} {p : Policy N F} {d : Direction} {st : Progress N F}
    (way : p.direction = .ok d) (started : Solver.start (orient d g) p = .ok st) (limit : Nat) :
    solve limit g p =
      (Solver.engine (orient d g) p).run limit st >>= fun final => .ok ⟨d, g.size, final⟩ := by
  unfold solve
  rw [way]
  show (Solver.start (orient d g) p >>= fun st => _) = _
  rw [started]
  rfl

/-- **The solver ends with stable facts, whatever the problem.** Take a graph that was built by the
operations and any problem in either direction; nothing is asked of its meet and its transfers.

Within any number of visits the solver either does not come to an end, or it gives both facts of
every node. These satisfy the equations of the problem, so that another visit of any node would
report no change. -/
theorem solve_stable (g : Cfg N) (built : g.Built) (p : Problem N F) (limit : Nat) :
    solve limit g (.ofProblem p) = .error .visitLimit ∨
      ∃ s before after, solve limit g (.ofProblem p) = .ok s ∧
        (∀ n ∈ g.nodes, s.before n = some (before n) ∧ s.after n = some (after n)) ∧
        p.IsSolution g before after ∧
        (Solver.engine (orient p.direction g) (.ofProblem p)).Stable g.nodes s.final := by
  have h := built.coherent
  have oriented := coherent_orient h p.direction
  obtain ⟨st, started, shown⟩ := Solver.start_eq (orient p.direction g) p
  have runs := (Solver.implements _ p oriented).run_stable (p.equations_local oriented) shown limit
  rw [solve_eq_run rfl started]
  simp only [p.isSolution_iff h]
  rcases runs with outOfVisits | ⟨final, input, output, run, facts, solved, stable⟩
  · rw [outOfVisits]
    exact Or.inl rfl
  · rw [run]
    cases way : p.direction with
    | forward =>
      rw [way] at facts solved stable
      exact Or.inr ⟨⟨.forward, g.size, final⟩, input, output, rfl, facts, solved, stable⟩
    | backward =>
      rw [way] at facts solved stable
      exact Or.inr ⟨⟨.backward, g.size, final⟩, output, input, rfl,
        fun n hn => (facts n hn).symm, solved, stable⟩

namespace Loop

/-- Numbers that are put together with weights, so that their order matters, and squared on the
way. -/
def weighted (direction : Direction) : Problem Nat Nat where
  direction := direction
  boundary := 3
  initial := 1
  meet x y := (3 * x + 5 * y) % 7
  transfer n x := (x * x + n + 5) % 7

end Loop

/-- The solver settles on the loop, in both directions. -/
theorem solve_stable_loop :
    (∃ s before after, solve 30 Loop.graph (.ofProblem (Loop.weighted .forward)) = .ok s ∧
      s.after 2 = some (after 2) ∧ (Loop.weighted .forward).IsSolution Loop.graph before after ∧
      (Solver.engine Loop.graph (.ofProblem (Loop.weighted .forward))).Stable
        Loop.graph.nodes s.final) ∧
    ∃ s before after, solve 30 Loop.graph (.ofProblem (Loop.weighted .backward)) = .ok s ∧
      s.before 2 = some (before 2) ∧ (Loop.weighted .backward).IsSolution Loop.graph before after ∧
      (Solver.engine Loop.graph.reverse (.ofProblem (Loop.weighted .backward))).Stable
        Loop.graph.nodes
        s.final := by
  have node : 2 ∈ Loop.graph.nodes := by decide
  constructor
  · rcases solve_stable Loop.graph Loop.built (Loop.weighted .forward) 30 with
      outOfVisits | ⟨s, before, after, run, facts, solution, stable⟩
    · exact nomatch outOfVisits
    · exact ⟨s, before, after, run, (facts 2 node).2, solution, stable⟩
  · rcases solve_stable Loop.graph Loop.built (Loop.weighted .backward) 30 with
      outOfVisits | ⟨s, before, after, run, facts, solution, stable⟩
    · exact nomatch outOfVisits
    · exact ⟨s, before, after, run, (facts 2 node).1, solution, stable⟩

/-! ### Graphs of several methods -/

section Inter

variable {M : Type} [DecidableEq M]

theorem solveInter_eq_run {name : M → String} {g : Icfg N M} {p : InterPolicy N M F}
    {entries : List N} {st : Progress N F} (known : g.entryNodes name = .ok entries)
    (started : InterSolver.start g entries p = .ok st) (limit : Nat) :
    solveInter name limit g p =
      (InterSolver.engine g entries p).run limit st >>= fun final =>
        .ok ⟨entries, g.nodes, final⟩ := by
  unfold solveInter
  rw [known]
  show (InterSolver.start g entries p >>= fun st => _) = _
  rw [started]
  rfl

end Inter

/-- **The solver across methods ends with stable facts, whatever the problem.** Take the graph of a
call graph whose entry methods are reachable, where the graphs of the methods were built by the
operations, and any problem; nothing is asked of its meet and its transfers. Methods may call each
other and entry methods, and nodes may lead to themselves.

The solver begins, and after any number of visits it has the facts behind the sources of all edges.
Within any number of visits it either does not come to an end, or it gives both facts of every node.
These satisfy the equations of the problem, so that another visit of any node would report no
change. -/
theorem solveInter_stable (graph : CallGraph Stmt Method) (cfgOf : Method → Cfg Node)
    (entries : graph.entries ⊆ graph.reachable) (built : ∀ m ∈ graph.reachable, (cfgOf m).Built)
    (p : InterProblem Node Method F) (name : Method → String) :
    let g := Icfg.build graph cfgOf
    let entryNodes := graph.entries.map fun m => (cfgOf m).entry
    ∃ nodes start, g.entryNodes name = .ok nodes ∧
      InterSolver.start g nodes (.ofProblem p) = .ok start ∧
      (∀ k, ∃ st, (InterSolver.engine g nodes (.ofProblem p)).advance k start = .ok st ∧
        ∀ n, ∀ e ∈ g.edgesInto n, ∃ fact, st.facts.outputFrom e.source = .ok fact) ∧
      ∀ limit, solveInter name limit g (.ofProblem p) = .error .visitLimit ∨
        ∃ s before after, solveInter name limit g (.ofProblem p) = .ok s ∧
          (∀ n ∈ g.nodes, s.before n = some (before n) ∧ s.after n = some (after n)) ∧
          p.IsSolution g entryNodes before after ∧
          (InterSolver.engine g nodes (.ofProblem p)).Stable g.nodes s.final := by
  intro g entryNodes
  have h : g.Coherent := Icfg.coherent_build fun m hm => (built m hm).coherent
  obtain ⟨nodes, known, mem_nodes⟩ := entryNodes_build cfgOf entries name
  obtain ⟨start, started, shown⟩ := InterSolver.start_eq g nodes p
  have impl := InterSolver.implements g nodes p h
  have loc := p.equations_local h nodes
  refine ⟨nodes, start, known, started, ?_, ?_⟩
  · intro k
    obtain ⟨st, advance, now, -⟩ := impl.advance loc (.start loc _ _) shown k
    refine ⟨st, advance, ?_⟩
    intro n e he
    have found := now.output e.source (h.ends e n he).1
    exact ⟨_, congrArg (orFault · .sourceFactMissing) found⟩
  · intro limit
    rw [solveInter_eq_run known started]
    rcases impl.run_stable loc shown limit with
      outOfVisits | ⟨final, before, after, run, facts, solved, stable⟩
    · rw [outOfVisits]
      exact Or.inl rfl
    · rw [run]
      have solution := (p.isSolution_iff (fun n => (mem_nodes n).symm) before after).mpr solved
      exact Or.inr ⟨⟨nodes, g.nodes, final⟩, before, after, rfl, facts, solution, stable⟩

namespace Recursion

/-- Numbers that are put together with weights, squared at nodes and turned round when a method
returns. -/
def weighted : InterProblem Node Method Nat where
  boundary _ := 3
  initial := 1
  meet x y := (2 * x + 5 * y) % 7
  transferNode n x := (x * x + if n.isCall then 6 else 0) % 7
  transferEdge e x := if e.kind = .ret then 6 - x else x

end Recursion

/-- The solver settles on methods that call each other. -/
theorem solveInter_stable_recursion :
    let g := Icfg.build Recursion.graph (Cfg.ofMethod Recursion.code)
    let entries := [Node.entry Recursion.main]
    ∃ s before after, solveInter Method.signature 40 g (.ofProblem Recursion.weighted) = .ok s ∧
      Recursion.weighted.IsSolution g entries before after ∧
      (InterSolver.engine g entries (.ofProblem Recursion.weighted)).Stable g.nodes s.final := by
  intro g entries
  obtain ⟨nodes, start, known, -, -, ends⟩ :=
    solveInter_stable Recursion.graph (Cfg.ofMethod Recursion.code) (by decide)
      (fun m _ => (Cfg.proper_ofMethod Recursion.code m).built) Recursion.weighted Method.signature
  have listed : Icfg.entryNodes Method.signature g = .ok entries := by
    simp only [g, Icfg.build, sortBy_eq_insertionSort]
    rfl
  have same : entries = nodes := Except.ok.inj (listed.symm.trans known)
  subst same
  rcases ends 40 with outOfVisits | ⟨s, before, after, run, -, solution, stable⟩
  · simp only [Icfg.build, sortBy_eq_insertionSort] at outOfVisits
    cases outOfVisits
  · exact ⟨s, before, after, run, solution, stable⟩

end StaticAnalysis.Dataflow
