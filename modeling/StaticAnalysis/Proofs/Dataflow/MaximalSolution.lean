import StaticAnalysis.Dataflow.Solver
import StaticAnalysis.Proofs.ControlFlow.Adjacency
import StaticAnalysis.Proofs.Dataflow.Descent

/-!
# Dataflow problems on one graph have maximal solutions

The solver of a single control-flow graph, with facts of any kind, against the equations of the
problem.

* `Problem.IsSolution` — the equations, for each direction in its own words.
* `Problem.equations` — the same as a system that the engine visits, on a graph that is run through
  forward. `Problem.isSolution_iff` ties the two together.
* `Solver.implements` and `Solver.start_eq` — the engine of the solver visits these equations, from
  the initial fact everywhere.
* `Problem.descends` — an output is read through a meet with the initial fact. Outputs that have not
  been computed are the initial fact, so that whatever comes in their place is nothing above them
  there.

**Main statement** (`solve_greatest`): the solver comes to an end at the greatest solution.
-/

namespace StaticAnalysis.Dataflow

variable {N F : Type} [DecidableEq N]

namespace Problem

/-- The equations of a problem, for the facts in front of and behind the nodes. A forward problem
has the boundary fact in front of the entry; in front of every other node it has the meet of the
initial fact and of all facts behind predecessors. A backward problem has the boundary fact behind
the exit, and behind every other node the meet of the initial fact and of all facts in front of
successors. -/
def IsSolution (p : Problem N F) (g : Cfg N) (before after : N → F) : Prop :=
  match p.direction with
  | .forward =>
    before g.entry = p.boundary ∧
      (∀ n ∈ g.nodes, n ≠ g.entry → before n = ((g.predsOf n).map after).foldl p.meet p.initial) ∧
      ∀ n ∈ g.nodes, after n = p.transfer n (before n)
  | .backward =>
    after g.exit = p.boundary ∧
      (∀ n ∈ g.nodes, n ≠ g.exit → after n = ((g.succsOf n).map before).foldl p.meet p.initial) ∧
      ∀ n ∈ g.nodes, before n = p.transfer n (after n)

/-- The equations of a problem that runs forward through a graph. -/
def equations (p : Problem N F) (g : Cfg N) : Equations N F where
  nodes := g.nodes
  gather output n :=
    if n = g.entry then p.boundary
    else (g.predsOf n).foldl (fun f m => p.meet f (output m)) p.initial
  transfer := p.transfer
  succs := g.succsOf

theorem solved_iff (p : Problem N F) {g : Cfg N} (entry : g.entry ∈ g.nodes)
    (input output : N → F) :
    (p.equations g).Solved input output ↔
      input g.entry = p.boundary ∧
        (∀ n ∈ g.nodes, n ≠ g.entry → input n = ((g.predsOf n).map output).foldl p.meet p.initial) ∧
        ∀ n ∈ g.nodes, output n = p.transfer n (input n) := by
  constructor
  · intro h
    refine ⟨?_, ?_, fun n hn => (h n hn).2⟩
    · exact (h g.entry entry).1.trans (if_pos rfl)
    · intro n hn hne
      rw [List.foldl_map]
      exact (h n hn).1.trans (if_neg hne)
  · rintro ⟨first, others, transfers⟩ n hn
    refine ⟨?_, transfers n hn⟩
    show input n = if n = g.entry then _ else _
    split
    · next e => rw [e, first]
    · next hne => rw [others n hn hne, List.foldl_map]

/-- A backward problem is a forward one on the graph turned round, with the facts in front of and
behind the nodes exchanged. -/
theorem isSolution_iff (p : Problem N F) {g : Cfg N} (h : g.Coherent) (before after : N → F) :
    p.IsSolution g before after ↔
      match p.direction with
      | .forward => (p.equations g).Solved before after
      | .backward => (p.equations g.reverse).Solved after before := by
  unfold IsSolution
  split
  · exact (p.solved_iff h.entry_mem before after).symm
  · exact (p.solved_iff h.reverse.entry_mem after before).symm

theorem equations_local (p : Problem N F) {g : Cfg N} (h : g.Coherent) : (p.equations g).Local where
  nodup := h.nodup
  ends := h.ends
  gather_congr n output output' same := by
    show (if n = g.entry then _ else _) = if n = g.entry then _ else _
    split
    · rfl
    · refine List.foldl_ext _ _ _ fun f m hm => ?_
      rw [same m ((h.mem_succsOf m n).mpr hm)]

/-- What a node reads of an output is its meet with the initial fact. -/
theorem descends (p : Problem N F) {g : Cfg N} (h : g.Coherent) (laws : MeetLaws p.meet)
    (mono : ∀ n ∈ g.nodes, ∀ a b, p.meet a b = a →
      p.meet (p.transfer n a) (p.transfer n b) = p.transfer n a) :
    let _ := laws.semilattice
    (p.equations g).Descends (fun _ => p.initial) fun a b => p.initial ⊓ a ≤ b := by
  intro lattice
  refine ⟨?_, ?_, ?_, ?_⟩
  · intro a b hab
    exact inf_le_right.trans hab
  · intro n hn a b hab
    exact mono n hn a b hab
  · intro n output output' sees
    show (if n = g.entry then _ else _) ≤ if n = g.entry then _ else _
    split
    · exact le_rfl
    · obtain ⟨initial, outputs⟩ := foldl_inf_le output (g.predsOf n) p.initial
      refine (le_foldl_inf output' (g.predsOf n) _ p.initial).mpr ⟨initial, fun m hm => ?_⟩
      exact (le_inf initial (outputs m hm)).trans (sees m ((h.mem_succsOf m n).mpr hm))
  · intro m n _
    exact Or.inr fun a => inf_le_left

end Problem

namespace Solver

/-- The solver visits the equations of its problem. The input of the entry is not computed but
kept. -/
theorem implements (g : Cfg N) (p : Problem N F) (h : g.Coherent) :
    (engine g (.ofProblem p)).Implements (p.equations g)
      fun facts => facts.input.get? g.entry = some p.boundary where
  gather facts output valid known n hn := by
    show gather g (.ofProblem p) facts n = .ok (if n = g.entry then _ else _)
    unfold gather
    split
    · next e =>
      rw [Facts.inputAt, e, valid]
      rfl
    · refine foldlM_eq_ok (fun m hm f => ?_) p.initial
      have edge := (h.mem_succsOf m n).mpr hm
      rw [Facts.outputFrom, known m (h.ends m n edge).1]
      rfl
  transfer _ _ := rfl
  succs _ := rfl
  valid facts output n x valid := by
    show (facts.input.set n (if n = g.entry then _ else _)).get? g.entry = _
    by_cases e : n = g.entry
    · rw [if_pos e, e, Table.get?_set_self]
    · rw [Table.get?_set_of_ne _ (Ne.symm e)]
      exact valid

/-- The solver begins with the initial fact everywhere but in front of the entry. -/
theorem start_eq (g : Cfg N) (p : Problem N F) :
    ∃ st, start g (.ofProblem p) = .ok st ∧
      Shows (p.equations g) (fun facts => facts.input.get? g.entry = some p.boundary) st
        ⟨fun n => if n = g.entry then p.boundary else p.initial, fun _ => p.initial,
          .ofList g.nodes⟩ := by
  refine ⟨_, rfl, Table.get?_set_self _ _ _, ?_, ?_, rfl⟩
  · intro n (hn : n ∈ g.nodes)
    rw [Table.get?_set, Table.get?_foldl_set, if_pos hn]
    exact (apply_ite some _ _ _).symm
  · intro n (hn : n ∈ g.nodes)
    rw [Table.get?_foldl_set, if_pos hn]

/-- On a graph that is run through forward, the engine comes to an end at the greatest solution. -/
theorem run_greatest [DecidableEq F] (g : Cfg N) (p : Problem N F) (h : g.Coherent)
    (laws : MeetLaws p.meet)
    (mono : ∀ n ∈ g.nodes, ∀ a b, p.meet a b = a →
      p.meet (p.transfer n a) (p.transfer n b) = p.transfer n a) :
    ∃ st visits final input output, start g (.ofProblem p) = .ok st ∧
      (∀ limit, visits ≤ limit → (engine g (.ofProblem p)).run limit st = .ok final) ∧
      (∀ n ∈ g.nodes, final.facts.input.get? n = some (input n) ∧
        final.facts.output.get? n = some (output n)) ∧
      (p.equations g).Solved input output ∧
      ∀ input' output', (p.equations g).Solved input' output' → ∀ n ∈ g.nodes,
        p.meet (input' n) (input n) = input' n ∧ p.meet (output' n) (output n) = output' n := by
  let _ := laws.semilattice
  have _ := laws.wellFoundedLT
  obtain ⟨st, started, shown⟩ := start_eq g p
  obtain ⟨visits, final, input, output, run⟩ :=
    (implements g p h).run_greatest (p.equations_local h) (p.descends h laws mono) shown
  exact ⟨st, visits, final, input, output, started, run⟩

end Solver

theorem coherent_orient {g : Cfg N} (h : g.Coherent) (d : Direction) : (orient d g).Coherent := by
  cases d with
  | forward => exact h
  | backward => exact h.reverse

variable [DecidableEq F]

theorem solve_eq_ok {limit : Nat} {g : Cfg N} {p : Policy N F} {s : Solution N F} :
    solve limit g p = .ok s ↔
      ∃ d, p.direction = .ok d ∧ ∃ st, Solver.start (orient d g) p = .ok st ∧
      ∃ final, (Solver.engine (orient d g) p).run limit st = .ok final ∧
        (.ok ⟨d, g.size, final⟩ : Except Fault (Solution N F)) = .ok s := by
  unfold solve
  simp only [bind_eq_ok]
  rfl

/-- More visits change nothing. -/
theorem solve_mono {g : Cfg N} {p : Policy N F} {k l : Nat} (hkl : k ≤ l) {s : Solution N F}
    (h : solve k g p = .ok s) : solve l g p = .ok s := by
  obtain ⟨d, way, st, started, final, run, result⟩ := solve_eq_ok.mp h
  exact solve_eq_ok.mpr ⟨d, way, st, started, final, Engine.run_mono hkl run, result⟩

/-- **The solver computes the maximal solution.** Take a graph that was built by the operations, and
a problem in either direction whose meet is commutative, associative and idempotent and without
endless descent, and whose transfers are monotone in the order of the meet. Nothing is asked of the
boundary fact and the initial fact.

There is a number of visits with which, and with any larger one, the solver gives the same solution.
It has both facts of every node; they satisfy the equations of the problem, and all facts that
satisfy them lie below. -/
theorem solve_greatest (g : Cfg N) (built : g.Built) (p : Problem N F) (laws : MeetLaws p.meet)
    (mono : ∀ n ∈ g.nodes, ∀ a b, p.meet a b = a →
      p.meet (p.transfer n a) (p.transfer n b) = p.transfer n a) :
    ∃ visits s before after,
      (∀ limit, visits ≤ limit → solve limit g (.ofProblem p) = .ok s) ∧
      (∀ n ∈ g.nodes, s.before n = some (before n) ∧ s.after n = some (after n)) ∧
      p.IsSolution g before after ∧
      ∀ before' after', p.IsSolution g before' after' → ∀ n ∈ g.nodes,
        p.meet (before' n) (before n) = before' n ∧ p.meet (after' n) (after n) = after' n := by
  have h := built.coherent
  have solves : ∀ {d st final limit}, p.direction = d →
      Solver.start (orient d g) (.ofProblem p) = .ok st →
      (Solver.engine (orient d g) (.ofProblem p)).run limit st = .ok final →
      solve limit g (.ofProblem p) = .ok ⟨d, g.size, final⟩ := fun way started run =>
    solve_eq_ok.mpr ⟨_, congrArg Except.ok way, _, started, _, run, rfl⟩
  simp only [p.isSolution_iff h]
  cases way : p.direction with
  | forward =>
    obtain ⟨st, visits, final, input, output, started, run, shown, solved, greatest⟩ :=
      Solver.run_greatest g p h laws mono
    exact ⟨visits, ⟨.forward, g.size, final⟩, input, output,
      fun limit hlimit => solves way started (run limit hlimit), shown, solved, greatest⟩
  | backward =>
    obtain ⟨st, visits, final, input, output, started, run, shown, solved, greatest⟩ :=
      Solver.run_greatest g.reverse p h.reverse laws mono
    refine ⟨visits, ⟨.backward, g.size, final⟩, output, input,
      fun limit hlimit => solves way started (run limit hlimit), ?_, solved, ?_⟩
    · intro n hn
      exact (shown n hn).symm
    · intro before after solved' n hn
      exact (greatest after before solved' n hn).symm

/-! ### A graph with loops -/

namespace Loop

/-- Two nodes that lead to each other, one also to itself and one back to the entry, and a node that
nothing leads to. -/
def graph : Cfg Nat :=
  ((((((Cfg.make 0 9).addEdge 0 1).addEdge 1 2).addEdge 2 1).addEdge 1 1).addEdge 2 0).addEdge 2 9
    |>.addEdge 7 2

/-- Bounds on a number. The node 1 raises them, so that its first output is above the initial
fact. -/
def problem : Problem Nat Nat where
  direction := .forward
  boundary := 10
  initial := 4
  meet := min
  transfer n bound := if n = 1 then bound + 5 else if n = 2 then bound - 1 else bound

theorem built : graph.Built :=
  .addEdge (.addEdge (.addEdge (.addEdge (.addEdge (.addEdge (.addEdge (.make 0 9)
    0 1) 1 2) 2 1) 1 1) 2 0) 2 9) 7 2

theorem mono : ∀ n ∈ graph.nodes, ∀ a b, problem.meet a b = a →
    problem.meet (problem.transfer n a) (problem.transfer n b) = problem.transfer n a := by
  intro n _ a b hab
  have hab : min a b = a := hab
  show min (problem.transfer n a) (problem.transfer n b) = problem.transfer n a
  simp only [problem]
  split
  · omega
  · split <;> omega

end Loop

/-- The bounds of the loop, which twenty visits are enough to find. -/
theorem solve_greatest_loop :
    ∃ s, solve 20 Loop.graph (.ofProblem Loop.problem) = .ok s ∧
      s.before 1 = some 3 ∧ s.after 1 = some 8 ∧
      ∀ before after, Loop.problem.IsSolution Loop.graph before after →
        before 1 ≤ 3 ∧ after 1 ≤ 8 := by
  obtain ⟨s, run, hbefore, hafter⟩ : ∃ s, solve 20 Loop.graph (.ofProblem Loop.problem) = .ok s ∧
      s.before 1 = some 3 ∧ s.after 1 = some 8 := ⟨_, rfl, rfl, rfl⟩
  refine ⟨s, run, hbefore, hafter, ?_⟩
  obtain ⟨visits, s', before, after, run', shown, -, greatest⟩ :=
    solve_greatest Loop.graph Loop.built Loop.problem MeetLaws.min Loop.mono
  have same : s = s' := Except.ok.inj ((solve_mono (Nat.le_add_right 20 visits) run).symm.trans
    (run' (20 + visits) (Nat.le_add_left visits 20)))
  subst same
  have hnode : 1 ∈ Loop.graph.nodes := by decide
  have heq := shown 1 hnode
  rw [hbefore, hafter, Option.some.injEq, Option.some.injEq] at heq
  intro before' after' solution
  have below := greatest before' after' solution 1 hnode
  rw [← heq.1, ← heq.2] at below
  exact ⟨min_eq_left_iff.mp below.1, min_eq_left_iff.mp below.2⟩

end StaticAnalysis.Dataflow
