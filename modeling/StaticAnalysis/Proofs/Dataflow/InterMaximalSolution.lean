import StaticAnalysis.Dataflow.InterSolver
import StaticAnalysis.Proofs.ControlFlow.Linking
import StaticAnalysis.Proofs.Dataflow.Descent

/-!
# Dataflow problems across methods have maximal solutions

The solver of interprocedural graphs, with facts of any kind, against the equations of the problem.

* `InterProblem.IsSolution` — the equations; `InterProblem.equations` is the same as a system that
  the engine visits.
* `InterSolver.implements` and `InterSolver.start_eq` — the engine of the solver visits these
  equations, from the boundary fact at the entries of entry methods and the initial fact elsewhere.
* `InterProblem.descends` — the initial fact is above all others, but the boundary fact need not be
  above what an entry gives out. It is gone by the time that anything reads it, since nothing reads
  an entry before its first visit.

**Main statement** (`solveInter_greatest`): on the graph of a call graph, the solver comes to an end
at the greatest solution.
-/

namespace StaticAnalysis.Dataflow

variable {N M F : Type} [DecidableEq N]

namespace InterProblem

/-- The fact that the meet at a node begins with, where `entries` are the entry nodes of entry
methods. -/
def first (p : InterProblem N M F) (entries : List N) (n : N) : F :=
  if n ∈ entries then p.boundary n else p.initial

/-- The equations of a problem. In front of a node is the meet, over all edges that enter it, of
what the edges make of the facts behind their sources, begun with the boundary fact or the initial
fact. -/
def IsSolution (p : InterProblem N M F) (g : Icfg N M) (entries : List N) (before after : N → F) :
    Prop :=
  ∀ n ∈ g.nodes,
    before n = ((g.edgesInto n).map fun e => p.transferEdge e (after e.source)).foldl p.meet
        (if n ∈ entries then p.boundary n else p.initial) ∧
      after n = p.transferNode n (before n)

/-- The equations of a problem as the solver visits them. -/
def equations (p : InterProblem N M F) (g : Icfg N M) (entries : List N) : Equations N F where
  nodes := g.nodes
  gather output n :=
    (g.edgesInto n).foldl (fun f e => p.meet f (p.transferEdge e (output e.source)))
      (p.first entries n)
  transfer := p.transferNode
  succs := g.succsOf

theorem isSolution_iff (p : InterProblem N M F) {g : Icfg N M} {entries entries' : List N}
    (same : ∀ n, n ∈ entries ↔ n ∈ entries') (before after : N → F) :
    p.IsSolution g entries before after ↔ (p.equations g entries').Solved before after := by
  have start : ∀ n, (if n ∈ entries then p.boundary n else p.initial) = p.first entries' n := by
    intro n
    simp only [first, same]
  simp only [IsSolution, Equations.Solved, equations, start, List.foldl_map]

theorem equations_local (p : InterProblem N M F) {g : Icfg N M} (h : g.Coherent)
    (entries : List N) : (p.equations g entries).Local where
  nodup := h.nodup
  ends m n hn := by
    obtain ⟨e, he, rfl⟩ := h.mem_succsOf.mp hn
    exact h.ends e n he
  gather_congr n output output' same := by
    refine List.foldl_ext _ _ _ fun f e he => ?_
    rw [same e.source (h.mem_succsOf.mpr ⟨e, he, rfl⟩)]

/-- What is asked of a problem on a graph: a meet without endless descent for which the initial fact
is neutral, and monotone transfers. -/
structure Monotonic (p : InterProblem N M F) (g : Icfg N M) : Prop where
  laws : MeetLaws p.meet
  initial : ∀ a, p.meet p.initial a = a
  edges : ∀ n ∈ g.nodes, ∀ e ∈ g.edgesInto n, ∀ a b, p.meet a b = a →
    p.meet (p.transferEdge e a) (p.transferEdge e b) = p.transferEdge e a
  nodes : ∀ n ∈ g.nodes, ∀ a b, p.meet a b = a →
    p.meet (p.transferNode n a) (p.transferNode n b) = p.transferNode n a

/-- Entries give out the boundary fact at first, which may be below what they give out later; but
whatever reads an entry comes after it. All other nodes give out the initial fact at first, and
nothing is above that. -/
theorem descends (p : InterProblem N M F) {g : Icfg N M} (h : g.Coherent) (mono : p.Monotonic g)
    {entries : List N}
    (early : ∀ e n, e ∈ g.edgesInto n → e.source ∈ entries → Precedes g.nodes e.source n) :
    let _ := mono.laws.semilattice
    (p.equations g entries).Descends (p.first entries) fun a b => a ≤ b := by
  intro lattice
  refine ⟨fun a b hab => hab, fun n hn a b hab => mono.nodes n hn a b hab, ?_, ?_⟩
  · intro n output output' sees
    obtain ⟨start, outputs⟩ :=
      foldl_inf_le (fun e : IcfgEdge N M => p.transferEdge e (output e.source))
      (g.edgesInto n) (p.first entries n)
    refine (le_foldl_inf (fun e : IcfgEdge N M => p.transferEdge e (output' e.source))
      (g.edgesInto n) _ _).mpr ⟨start, fun e he => (outputs e he).trans ?_⟩
    exact mono.edges n (h.ends e n he).2 e he _ _ (sees e.source (h.mem_succsOf.mpr ⟨e, he, rfl⟩))
  · intro m n hn
    obtain ⟨e, he, rfl⟩ := h.mem_succsOf.mp hn
    by_cases entry : e.source ∈ entries
    · exact Or.inl (early e n he entry)
    · refine Or.inr fun a => ?_
      show p.meet a (p.first entries e.source) = a
      rw [first, if_neg entry, mono.laws.comm, mono.initial]

end InterProblem

namespace InterSolver

theorem base_ofProblem (p : InterProblem N M F) (entries : List N) (n : N) :
    base entries (.ofProblem p) n = .ok (p.first entries n) := by
  unfold base InterProblem.first
  split <;> rfl

/-- The solver visits the equations of its problem. -/
theorem implements (g : Icfg N M) (entries : List N) (p : InterProblem N M F) (h : g.Coherent) :
    (engine g entries (.ofProblem p)).Implements (p.equations g entries) fun _ => True where
  gather facts output _ known n _ := by
    show gather g entries (.ofProblem p) facts n = _
    unfold gather
    rw [base_ofProblem]
    refine foldlM_eq_ok (fun e he f => ?_) (p.first entries n)
    rw [Facts.outputFrom, known e.source (h.ends e n he).1]
    rfl
  transfer _ _ := rfl
  succs _ := rfl
  valid _ _ _ _ _ := trivial

/-- The solver begins with the first fact of every node on both of its sides. -/
theorem start_eq (g : Icfg N M) (entries : List N) (p : InterProblem N M F) :
    ∃ st, start g entries (.ofProblem p) = .ok st ∧
      Shows (p.equations g entries) (fun _ => True) st
        ⟨p.first entries, p.first entries, .ofList g.nodes⟩ := by
  have filled : ∀ (ns : List N) (fs : Facts N F),
      ns.foldl (fun fs n => fs.set n (p.first entries n) (p.first entries n)) fs =
        ⟨ns.foldl (fun t n => t.set n (p.first entries n)) fs.input,
          ns.foldl (fun t n => t.set n (p.first entries n)) fs.output⟩ := by
    intro ns
    induction ns with
    | nil => exact fun _ => rfl
    | cons n ns ih => exact fun fs => ih (fs.set n _ _)
  have seeded : g.nodes.foldlM (seed entries (.ofProblem p)) {} =
      Except.ok
        (g.nodes.foldl (fun fs n => fs.set n (p.first entries n) (p.first entries n)) {}) := by
    refine foldlM_eq_ok (fun n _ fs => ?_) _
    rw [seed, base_ofProblem]
    rfl
  refine ⟨_, bind_eq_ok.mpr ⟨_, seeded, rfl⟩, trivial, ?_, ?_, rfl⟩
  · intro n (hn : n ∈ g.nodes)
    rw [filled, Table.get?_foldl_set, if_pos hn]
  · intro n (hn : n ∈ g.nodes)
    rw [filled, Table.get?_foldl_set, if_pos hn]

end InterSolver

section Solve

variable [DecidableEq M] [DecidableEq F]

theorem solveInter_eq_ok {name : M → String} {limit : Nat} {g : Icfg N M} {p : InterPolicy N M F}
    {s : InterSolution N F} :
    solveInter name limit g p = .ok s ↔ ∃ entries, g.entryNodes name = .ok entries ∧
      ∃ st, InterSolver.start g entries p = .ok st ∧
        ∃ final, (InterSolver.engine g entries p).run limit st = .ok final ∧
          (.ok ⟨entries, g.nodes, final⟩ : Except Fault (InterSolution N F)) = .ok s := by
  unfold solveInter
  simp only [bind_eq_ok]
  rfl

/-- More visits change nothing. -/
theorem solveInter_mono {name : M → String} {g : Icfg N M} {p : InterPolicy N M F} {k l : Nat}
    (hkl : k ≤ l) {s : InterSolution N F} (h : solveInter name k g p = .ok s) :
    solveInter name l g p = .ok s := by
  obtain ⟨entries, known, st, started, final, run, result⟩ := solveInter_eq_ok.mp h
  exact solveInter_eq_ok.mpr ⟨entries, known, st, started, final, Engine.run_mono hkl run, result⟩

end Solve

/-- The entry nodes of the entry methods, if these are reachable. -/
theorem entryNodes_build {graph : CallGraph Stmt Method} (cfgOf : Method → Cfg Node)
    (entries : graph.entries ⊆ graph.reachable) (name : Method → String) :
    ∃ nodes, (Icfg.build graph cfgOf).entryNodes name = .ok nodes ∧
      ∀ n, n ∈ nodes ↔ n ∈ graph.entries.map fun m => (cfgOf m).entry := by
  have sorted : (Icfg.build graph cfgOf).entries = sortBy Icfg.bySignature graph.entries :=
    Icfg.entries_link
  refine ⟨distinct ((sortBy Icfg.bySignature graph.entries).map fun m => (cfgOf m).entry), ?_, ?_⟩
  · unfold Icfg.entryNodes
    rw [sorted]
    refine congrArg (distinct <$> ·) (mapM_eq_ok fun m hm => ?_)
    rw [Icfg.build_eq, Icfg.entryOf?_link, if_pos (mem_sortBy.mpr (entries (mem_sortBy.mp hm)))]
  · intro n
    simp only [mem_distinct, List.mem_map, mem_sortBy]

/-- **The solver computes the maximal solution across methods.** Take the graph of a call graph
whose entry methods are reachable. The graphs of the methods share no nodes; their entries are no
statements and other nodes than their exits, and do not lead to themselves. Take a problem whose
meet is commutative, associative and idempotent and without endless descent, whose initial fact is
neutral, and whose transfers of edges and nodes are monotone. Nothing is asked of the boundary
facts, and methods may call each other and entry methods at will.

There is a number of visits with which, and with any larger one, the solver gives the same solution.
It has both facts of every node; they satisfy the equations of the problem, and all facts that
satisfy them lie below. -/
theorem solveInter_greatest [DecidableEq F] (graph : CallGraph Stmt Method)
    (cfgOf : Method → Cfg Node) (entries : graph.entries ⊆ graph.reachable)
    (proper : ∀ m ∈ graph.reachable, (cfgOf m).Proper)
    (disjoint : ∀ m ∈ graph.reachable, ∀ m' ∈ graph.reachable,
      ∀ n ∈ (cfgOf m).nodes, n ∈ (cfgOf m').nodes → m = m')
    (p : InterProblem Node Method F) (mono : p.Monotonic (Icfg.build graph cfgOf))
    (name : Method → String) :
    let g := Icfg.build graph cfgOf
    let entryNodes := graph.entries.map fun m => (cfgOf m).entry
    ∃ visits s before after,
      (∀ limit, visits ≤ limit → solveInter name limit g (.ofProblem p) = .ok s) ∧
      (∀ n ∈ g.nodes, s.before n = some (before n) ∧ s.after n = some (after n)) ∧
      p.IsSolution g entryNodes before after ∧
      ∀ before' after', p.IsSolution g entryNodes before' after' → ∀ n ∈ g.nodes,
        p.meet (before' n) (before n) = before' n ∧ p.meet (after' n) (after n) = after' n := by
  intro g entryNodes
  let _ := mono.laws.semilattice
  have _ := mono.laws.wellFoundedLT
  have h : g.Coherent := Icfg.coherent_build fun m hm => (proper m hm).built.coherent
  obtain ⟨nodes, known, mem_nodes⟩ := entryNodes_build cfgOf entries name
  have early : ∀ e n, e ∈ g.edgesInto n → e.source ∈ nodes → Precedes g.nodes e.source n := by
    intro e n he source
    obtain ⟨m, hm, source⟩ := List.mem_map.mp ((mem_nodes _).mp source)
    rw [← source]
    exact Icfg.precedes_build proper disjoint (entries hm) he source.symm
  obtain ⟨st, started, shown⟩ := InterSolver.start_eq g nodes p
  obtain ⟨visits, final, before, after, run, facts⟩ :=
    (InterSolver.implements g nodes p h).run_greatest (p.equations_local h nodes)
      (p.descends h mono early) shown
  have solution : ∀ before after, p.IsSolution g entryNodes before after ↔
      (p.equations g nodes).Solved before after := p.isSolution_iff fun n => (mem_nodes n).symm
  simp only [solution]
  exact ⟨visits, ⟨nodes, g.nodes, final⟩, before, after,
    fun limit hlimit =>
      solveInter_eq_ok.mpr ⟨nodes, known, st, started, final, run limit hlimit, rfl⟩,
    facts⟩

/-! ### Methods that call each other -/

namespace Recursion

def owner : Class := ⟨0, "Main", false, false⟩

def main : Method := ⟨0, "main", owner, [], [], .void, true, false⟩

def again : Method := ⟨1, "again", owner, [], [], .void, true, false⟩

/-- The call in `main`. -/
def callAgain : Stmt := ⟨⟨0, main⟩, .call ⟨.static, again.target, none, [], none⟩, false⟩

/-- The call in `again`. -/
def callMain : Stmt := ⟨⟨0, again⟩, .call ⟨.static, main.target, none, [], none⟩, false⟩

def code : CodeBase where
  bodies :=
    ⟨[(main, { stmts := [callAgain, ⟨⟨1, main⟩, .nop, false⟩] }), (again, { stmts := [callMain] })]⟩

def graph : CallGraph Stmt Method where
  entries := [main]
  reachable := [main, again]
  edges := [⟨.static, callAgain, again⟩, ⟨.static, callMain, main⟩]
  bySite := ⟨[(callAgain, [⟨.static, callAgain, again⟩]), (callMain, [⟨.static, callMain, main⟩])]⟩
  byCallee := ⟨[(again, [⟨.static, callAgain, again⟩]), (main, [⟨.static, callMain, main⟩])]⟩

/-- Bounds up to nine. The entry of `main` has the bound 2 in front and 7 behind it, and calls have
none above 5. -/
def problem : InterProblem Node Method (Fin 10) where
  boundary _ := 2
  initial := 9
  meet := min
  transferNode n bound := if n = .entry main then 7 else bound
  transferEdge e bound := if e.kind = .call then min bound 5 else bound

theorem monotonic : problem.Monotonic (Icfg.build graph (Cfg.ofMethod code)) where
  laws := MeetLaws.min
  initial := by decide
  edges n _ e _ := by
    simp only [problem]
    split <;> decide
  nodes n _ := by
    simp only [problem]
    split <;> decide

end Recursion

/-- In front of the exit of `main` is the bound of the calls. It goes round with the calls, as the
bound at the beginning would if it had been read once. -/
theorem solveInter_greatest_recursion :
    ∃ s, solveInter Method.signature 40 (Icfg.build Recursion.graph (Cfg.ofMethod Recursion.code))
        (.ofProblem Recursion.problem) = .ok s ∧
      s.before (.exit Recursion.main) = some 5 ∧
      ∀ before after, Recursion.problem.IsSolution
          (Icfg.build Recursion.graph (Cfg.ofMethod Recursion.code)) [.entry Recursion.main]
          before after →
        before (.exit Recursion.main) ≤ 5 := by
  obtain ⟨s, run, hbefore⟩ : ∃ s, solveInter Method.signature 40
      (Icfg.build Recursion.graph (Cfg.ofMethod Recursion.code)) (.ofProblem Recursion.problem) =
        .ok s ∧
      s.before (.exit Recursion.main) = some 5 := by
    simp only [Icfg.build, sortBy_eq_insertionSort]
    exact ⟨_, rfl, rfl⟩
  refine ⟨s, run, hbefore, ?_⟩
  obtain ⟨visits, s', before, after, run', shown, -, greatest⟩ :=
    solveInter_greatest Recursion.graph (Cfg.ofMethod Recursion.code) (by decide)
      (fun m _ => Cfg.proper_ofMethod Recursion.code m) (by decide +kernel) Recursion.problem
      Recursion.monotonic Method.signature
  have same : s = s' := Except.ok.inj ((solveInter_mono (Nat.le_add_right 40 visits) run).symm.trans
    (run' (40 + visits) (Nat.le_add_left visits 40)))
  subst same
  have hnode : Node.exit Recursion.main ∈
      (Icfg.build Recursion.graph (Cfg.ofMethod Recursion.code)).nodes := by
    simp only [Icfg.build, sortBy_eq_insertionSort]
    decide +kernel
  have heq := (shown _ hnode).1
  rw [hbefore, Option.some.injEq] at heq
  intro before' after' solution
  have below := (greatest before' after' solution _ hnode).1
  rw [← heq] at below
  exact min_eq_left_iff.mp below

end StaticAnalysis.Dataflow
