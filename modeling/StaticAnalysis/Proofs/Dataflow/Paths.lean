import Mathlib.Data.List.Chain
import StaticAnalysis.Proofs.Dataflow.SetFacts

/-!
# What problems on sets find out about paths

A problem on sets puts together what comes from all predecessors. An element is in its solution if
there is a path on which the element is introduced and never taken out again.

* `Introduced` — an element appears behind a node by itself: the rule of the node puts it in, or it
  is there from the beginning and the rule does not take it out.
* `Passes` — an edge that an element takes. No element goes into the entry, whose input stays what
  it is.
* `Arrives` — an element that is introduced at the first node of a path and passes all edges of it.
* `mem_output_iff` — the equations say of an output what `arrives_iff` says of arriving elements, so
  that these are a solution.
* `Problem.Computes` — what the solver finds; `Computes.holds_iff` reads it off a run.

**Main statement** (`genKill_computes_paths`): the solver finds the elements that arrive, forward
and backward. For live variables and reaching definitions this is what is known of them (`Live`,
`Reaching`).
-/

namespace StaticAnalysis.Dataflow

section Arriving

variable {N α : Type} [DecidableEq N] (g : Cfg N) (boundary initial : FinSet α) (rule : N → Rule α)

/-- An element is behind a node without having come from another one. -/
def Introduced (x : α) (n : N) : Prop :=
  x ∈ (rule n).gen ∨ ((rule n).kill x = false ∧ x ∈ if n = g.entry then boundary else initial)

/-- An edge to a node that is not the entry and does not take the element out. -/
def Passes (x : α) (a b : N) : Prop := b ∈ g.succsOf a ∧ b ≠ g.entry ∧ (rule b).kill x = false

/-- There is a path to a node such that the element is introduced at its first node and passes all
its edges. -/
def Arrives (x : α) (n : N) : Prop :=
  ∃ origin path, List.IsChain (Passes g rule x) (origin :: path) ∧
    (origin :: path).getLast (List.cons_ne_nil origin path) = n ∧
      Introduced g boundary initial rule x origin

variable {g boundary initial rule} {x : α} {n : N}

/-- Paths as steps. -/
theorem arrives_iff_steps : Arrives g boundary initial rule x n ↔
    ∃ origin, Introduced g boundary initial rule x origin ∧
      Relation.ReflTransGen (Passes g rule x) origin n := by
  constructor
  · rintro ⟨origin, path, chain, last, first⟩
    exact ⟨origin, first, List.relationReflTransGen_of_exists_isChain_cons path chain last⟩
  · rintro ⟨origin, first, steps⟩
    obtain ⟨path, chain, last⟩ := List.exists_isChain_cons_of_relationReflTransGen steps
    exact ⟨origin, path, chain, last, first⟩

/-- Whatever arrives is introduced at the node or has arrived at a node before it. -/
theorem arrives_iff : Arrives g boundary initial rule x n ↔
    Introduced g boundary initial rule x n ∨
      ∃ a, Passes g rule x a n ∧ Arrives g boundary initial rule x a := by
  simp only [arrives_iff_steps]
  constructor
  · rintro ⟨origin, first, steps⟩
    rcases steps.cases_tail with rfl | ⟨a, before, last⟩
    · exact Or.inl first
    · exact Or.inr ⟨a, last, origin, first, before⟩
  · rintro (first | ⟨a, last, origin, first, before⟩)
    · exact ⟨n, first, .refl⟩
    · exact ⟨origin, first, before.tail last⟩

/-! ### Equations and paths -/

variable [DecidableEq α]

/-- What the equations put behind a node is introduced there or comes along an edge. -/
theorem mem_output_iff (h : g.Coherent) (d : Direction) (output : N → FinSet α) :
    x ∈ (rule n).apply (((genKill d .union boundary initial rule).equations g).gather output n) ↔
      Introduced g boundary initial rule x n ∨ ∃ a, Passes g rule x a n ∧ x ∈ output a := by
  have gathered : x ∈ ((genKill d .union boundary initial rule).equations g).gather output n ↔
      (x ∈ if n = g.entry then boundary else initial) ∨ n ≠ g.entry ∧
          ∃ a ∈ g.predsOf n, x ∈ output a := by
    show x ∈ (if n = g.entry then boundary else _) ↔ _
    by_cases hn : n = g.entry
    · simp [hn]
    · rw [if_neg hn, if_neg hn, and_iff_right hn]
      exact FinSet.mem_foldl_union
  simp only [Rule.mem_apply, gathered, Introduced, Passes, h.mem_succsOf]
  grind

/-- A solution has everything that arrives. -/
theorem mem_of_arrives (h : g.Coherent) {d : Direction} {input output : N → FinSet α}
    (solved : ((genKill d .union boundary initial rule).equations g).Solved input output)
    (hn : n ∈ g.nodes) (arrives : Arrives g boundary initial rule x n) : x ∈ output n := by
  have output_iff : ∀ {k}, k ∈ g.nodes → (x ∈ output k ↔
      Introduced g boundary initial rule x k ∨ ∃ a, Passes g rule x a k ∧ x ∈ output a) := by
    intro k hk
    obtain ⟨gathered, applied⟩ := solved k hk
    rw [applied, gathered]
    exact mem_output_iff h d output
  obtain ⟨origin, first, steps⟩ := arrives_iff_steps.mp arrives
  induction steps with
  | refl => exact (output_iff hn).mpr (Or.inl first)
  | @tail a b _ last ih =>
    have ha := (h.ends a b last.1).1
    exact (output_iff hn).mpr (Or.inr ⟨a, last, ih ha (arrives_iff_steps.mpr ⟨origin, first, ‹_›⟩)⟩)

variable (g boundary initial rule) in
open Classical in
/-- The elements of a set that arrive at a node. -/
noncomputable def arriving (u : FinSet α) (n : N) : u.Part :=
  (u.filter fun x => decide (Arrives g boundary initial rule x n)).within u

theorem mem_arriving {u : FinSet α} :
    x ∈ (arriving g boundary initial rule u n).1 ↔ x ∈ u ∧ Arrives g boundary initial rule x n := by
  simp only [arriving, FinSet.mem_within, FinSet.mem_filter, decide_eq_true_eq]
  exact and_iff_left_of_imp And.left

/-- **What arrives is a solution.** -/
theorem solved_arriving (h : g.Coherent) :
    let u := mentioned boundary initial rule g.nodes
    let eqs := (genKillWithin boundary initial rule u).equations g
    eqs.Solved (eqs.gather (arriving g boundary initial rule u))
        (arriving g boundary initial rule u) := by
  intro u eqs n hn
  refine ⟨rfl, FinSet.Part.ext fun x => ?_⟩
  have emb : eqs.Embeds Subtype.val ((genKill .forward .union boundary initial rule).equations g) :=
    embeds_genKill .forward
  show _ ↔ x ∈ (((rule n).apply (eqs.gather (arriving g boundary initial rule u) n).1).within u).1
  rw [← emb.gather, FinSet.mem_within, mem_output_iff h]
  simp only [Function.comp_apply, mem_arriving]
  rw [arrives_iff]
  grind

variable (boundary initial rule) in
/-- On a graph that is run through forward, the engine comes to an end with the elements that
arrive. -/
theorem run_arrives (h : g.Coherent) (d : Direction) :
    let p := genKill d .union boundary initial rule
    ∃ st visits final, ∃ output : N → FinSet α, Solver.start g (.ofProblem p) = .ok st ∧
      (∀ limit, visits ≤ limit → (Solver.engine g (.ofProblem p)).run limit st = .ok final) ∧
      ∀ n ∈ g.nodes, final.facts.output.get? n = some (output n) ∧
        ∀ x, x ∈ output n ↔ Arrives g boundary initial rule x n := by
  intro p
  obtain ⟨st, started, shown⟩ := Solver.start_eq g p
  obtain ⟨s, settles, solved, smallest⟩ := genKill_settles boundary initial rule h d
  have loc := p.equations_local h
  obtain ⟨visits, final, run, shown'⟩ :=
    (Solver.implements g p h).run loc settles (.start loc _ _) shown
  refine ⟨st, visits, final, s.output, started, run, fun n hn =>
    ⟨shown'.output n hn, fun x => ⟨?_, ?_⟩⟩⟩
  · intro hx
    exact (mem_arriving.mp (smallest _ _ (solved_arriving h) n hn x hx)).2
  · exact mem_of_arrives h solved hn

end Arriving

/-! ### What the solver finds -/

section Computes

variable {N α : Type} [DecidableEq N] [DecidableEq α]

/-- The fact of a node that the solver computes: the one behind it if the problem is a forward one,
and the one in front of it if it is a backward one. -/
def Problem.result {F : Type} (p : Problem N F) (s : Solution N F) (n : N) : Option F :=
  match p.direction with
  | .forward => s.after n
  | .backward => s.before n

/-- The solver comes to an end, and it finds the elements for which something holds. -/
def Problem.Computes (p : Problem N (FinSet α)) (g : Cfg N) (holds : α → N → Prop) : Prop :=
  ∃ visits s, (∀ limit, visits ≤ limit → solve limit g (.ofProblem p) = .ok s) ∧
    ∀ n ∈ g.nodes, ∃ facts, p.result s n = some facts ∧ ∀ x, x ∈ facts ↔ holds x n

theorem genKill_computes {g : Cfg N} (built : g.Built) (d : Direction) (boundary initial : FinSet α)
    (rule : N → Rule α) :
    (genKill d .union boundary initial rule).Computes g
      (Arrives (orient d g) boundary initial rule) := by
  obtain ⟨st, visits, final, output, started, run, facts⟩ :=
    run_arrives boundary initial rule (coherent_orient built.coherent d) d
  refine ⟨visits, ⟨d, g.size, final⟩, ?_, ?_⟩
  · intro limit hlimit
    exact solve_eq_ok.mpr ⟨d, rfl, st, started, final, run limit hlimit, rfl⟩
  · cases d with
    | forward => exact fun n hn => ⟨output n, facts n hn⟩
    | backward => exact fun n hn => ⟨output n, facts n hn⟩

theorem Problem.Computes.congr {p : Problem N (FinSet α)} {g : Cfg N} {holds holds' : α → N → Prop}
    (h : p.Computes g holds) (same : ∀ x n, holds x n ↔ holds' x n) : p.Computes g holds' := by
  obtain ⟨visits, s, run, facts⟩ := h
  refine ⟨visits, s, run, fun n hn => ?_⟩
  obtain ⟨found, shown, mem⟩ := facts n hn
  exact ⟨found, shown, fun x => (mem x).trans (same x n)⟩

/-- Whether an element is among those that the solver finds at a node, if it comes to an end. -/
def Problem.finds? (p : Problem N (FinSet α)) (limit : Nat) (g : Cfg N) (x : α) (n : N) :
    Option Bool := do
  let s ← (solve limit g (.ofProblem p)).toOption
  let facts ← p.result s n
  some (facts.contains x)

/-- Any run that comes to an end tells what holds. -/
theorem Problem.Computes.holds_iff {p : Problem N (FinSet α)} {g : Cfg N} {holds : α → N → Prop}
    (h : p.Computes g holds) {limit : Nat} {x : α} {n : N} {found : Bool} (hn : n ∈ g.nodes)
    (finds : p.finds? limit g x n = some found) : found = true ↔ holds x n := by
  obtain ⟨visits, s, run, facts⟩ := h
  obtain ⟨out, shown, mem⟩ := facts n hn
  cases ends : solve limit g (.ofProblem p) with
  | error fault =>
    rw [Problem.finds?, ends] at finds
    exact nomatch finds
  | ok s' =>
    have same := solve_mono (Nat.le_add_right limit visits) ends
    rw [run (limit + visits) (Nat.le_add_left visits limit)] at same
    obtain rfl := Except.ok.inj same
    rw [Problem.finds?, ends] at finds
    have finds : (p.result s n).bind (fun facts => some (facts.contains x)) = some found := finds
    rw [shown] at finds
    rw [← mem x, ← FinSet.contains_iff, Option.some.inj finds]

end Computes

/-! ### Live variables and reaching definitions -/

/-- The node is a statement that writes the variable. -/
def Writes (n : Node) (v : Operand) : Prop := v.isSome ∧ ∃ s, n.stmt? = some s ∧ s.defines? = v

/-- A path leads from the node to a statement that reads the variable, past no statement that writes
it. It may end at the exit, but not lead past it. -/
def Live (g : Cfg Node) (v : Operand) (n : Node) : Prop :=
  ∃ path s, List.IsChain (fun a b => b ∈ g.succsOf a ∧ a ≠ g.exit ∧ ¬ Writes a v) (n :: path) ∧
    (n :: path).getLast (List.cons_ne_nil n path) = .stmt s ∧ v ∈ s.uses

/-- The statement writes a variable, and a path leads from it to the node on which no later
statement writes the variable and which does not come back to the entry. -/
def Reaching (g : Cfg Node) (s : Stmt) (n : Node) : Prop :=
  s.defines?.isSome ∧
    ∃ path, List.IsChain (fun a b => b ∈ g.succsOf a ∧ b ≠ g.entry ∧ ¬ Writes b s.defines?)
      (.stmt s :: path) ∧
      (.stmt s :: path).getLast (List.cons_ne_nil _ path) = n

theorem kill_liveRule {n : Node} {v : Operand} : (liveRule n).kill v = false ↔ ¬ Writes n v := by
  unfold liveRule Writes
  cases n.stmt? <;> simp

theorem mem_gen_liveRule {n : Node} {v : Operand} :
    v ∈ (liveRule n).gen ↔ ∃ s, n = .stmt s ∧ v ∈ s.uses := by
  cases n with
  | stmt s => simp [liveRule, Node.stmt?]
  | entry m => exact iff_of_false FinSet.not_mem_empty (by simp)
  | exit m => exact iff_of_false FinSet.not_mem_empty (by simp)

theorem kill_definitionRule {n : Node} {s : Stmt} :
    (definitionRule n).kill s = false ↔ ¬ Writes n s.defines? := by
  rw [← Bool.not_eq_true, not_iff_not]
  unfold definitionRule Writes
  cases n.stmt? with
  | none => simp
  | some t =>
    by_cases writes : t.defines?.isSome = true
    · simp only [writes, if_true, decide_eq_true_eq, Option.some.injEq, exists_eq_left']
      exact ⟨fun e => ⟨e ▸ writes, e.symm⟩, fun h => h.2.symm⟩
    · simp only [writes, Option.some.injEq, exists_eq_left']
      exact iff_of_false Bool.false_ne_true fun h => writes (h.2 ▸ h.1)

theorem mem_gen_definitionRule {n : Node} {s : Stmt} :
    s ∈ (definitionRule n).gen ↔ s.defines?.isSome ∧ n = .stmt s := by
  cases n with
  | stmt t =>
    by_cases writes : t.defines?.isSome = true
    · simp only [definitionRule, Node.stmt?, writes, if_true, FinSet.mem_ofList, List.mem_singleton,
        Node.stmt.injEq]
      exact ⟨fun e => ⟨e ▸ writes, e.symm⟩, fun h => h.2.symm⟩
    · simp only [definitionRule, Node.stmt?, writes, Node.stmt.injEq]
      exact iff_of_false FinSet.not_mem_empty fun h => writes (h.2 ▸ h.1)
  | entry m => exact iff_of_false FinSet.not_mem_empty (by simp)
  | exit m => exact iff_of_false FinSet.not_mem_empty (by simp)

/-- Where nothing is there from the beginning, elements are introduced by rules only. -/
theorem introduced_of_empty {N α : Type} [DecidableEq N] {g : Cfg N} {rule : N → Rule α} {x : α}
    {n : N} : Introduced g ∅ ∅ rule x n ↔ x ∈ (rule n).gen := by
  unfold Introduced
  rw [ite_self]
  exact or_iff_left fun h => FinSet.not_mem_empty h.2

/-- Against the edges, variables arrive where they are live. -/
theorem arrives_live {g : Cfg Node} (h : g.Coherent) (v : Operand) (n : Node) :
    Arrives g.reverse ∅ ∅ liveRule v n ↔ Live g v n := by
  have turned : Passes g.reverse liveRule v =
      Function.swap fun a b => b ∈ g.succsOf a ∧ a ≠ g.exit ∧ ¬ Writes a v := by
    funext a b
    show (b ∈ g.predsOf a ∧ b ≠ g.exit ∧ _) = (a ∈ g.succsOf b ∧ b ≠ g.exit ∧ _)
    rw [h.mem_succsOf, kill_liveRule]
  rw [arrives_iff_steps, turned]
  simp only [introduced_of_empty, mem_gen_liveRule]
  constructor
  · rintro ⟨_, ⟨s, rfl, reads⟩, steps⟩
    obtain ⟨path, chain, last⟩ :=
      List.exists_isChain_cons_of_relationReflTransGen (Relation.reflTransGen_swap.mp steps)
    exact ⟨path, s, chain, last, reads⟩
  · rintro ⟨path, s, chain, last, reads⟩
    have steps := List.relationReflTransGen_of_exists_isChain_cons path chain last
    exact ⟨.stmt s, ⟨s, rfl, reads⟩, Relation.reflTransGen_swap.mpr steps⟩

/-- Along the edges, statements arrive where the values that they write may be. -/
theorem arrives_reaching {g : Cfg Node} (s : Stmt) (n : Node) :
    Arrives g ∅ ∅ definitionRule s n ↔ Reaching g s n := by
  have edges : Passes g definitionRule s =
      fun a b => b ∈ g.succsOf a ∧ b ≠ g.entry ∧ ¬ Writes b s.defines? := by
    funext a b
    rw [Passes, kill_definitionRule]
  unfold Arrives Reaching
  simp only [introduced_of_empty, mem_gen_definitionRule, edges]
  constructor
  · rintro ⟨_, path, chain, last, writes, rfl⟩
    exact ⟨writes, path, chain, last⟩
  · rintro ⟨writes, path, chain, last⟩
    exact ⟨.stmt s, path, chain, last, writes, rfl⟩

/-- **The solver finds what arrives on paths.** Take a graph that was built by the operations and a
problem in which every node has a rule and facts are put together by union.

Forward, the solver comes to an end, and an element is behind a node just if there is a path to the
node, with none of its nodes after the first being the entry, such that the element is introduced at
the first node and taken out by none after it. Backward, the same holds for what is in front of a
node, with all edges turned round and the exit in place of the entry.

Live variables and reaching definitions are such problems: a variable is live in front of a node if
a path leads to where it is read before it is written, and a definition reaches the point behind a
node if a path leads there on which its variable is not written again. -/
theorem genKill_computes_paths :
    (∀ {N α : Type} [DecidableEq N] [DecidableEq α] (g : Cfg N) (boundary initial : FinSet α)
      (rule : N → Rule α),
      g.Built →
        (genKill .forward .union boundary initial rule).Computes g
          (Arrives g boundary initial rule) ∧
        (genKill .backward .union boundary initial rule).Computes g
          (Arrives g.reverse boundary initial rule)) ∧
    ∀ g : Cfg Node, g.Built →
      liveVariables.Computes g (Live g) ∧ reachingDefinitions.Computes g (Reaching g) := by
  refine ⟨?_, ?_⟩
  · intro N α _ _ g boundary initial rule built
    exact ⟨genKill_computes built .forward boundary initial rule,
      genKill_computes built .backward boundary initial rule⟩
  · intro g built
    exact ⟨(genKill_computes built .backward ∅ ∅ liveRule).congr (arrives_live built.coherent),
      (genKill_computes built .forward ∅ ∅ definitionRule).congr arrives_reaching⟩

namespace Loop

/-- Rules on the loop. Its first node takes 5 out, and its second one puts 22 in, which then leads
back to the entry. -/
def tokens (n : Nat) : Rule Nat :=
  if n = 1 then .ofSets (.ofList [5]) (.ofList [11])
  else if n = 2 then .ofSets (.ofList [8]) (.ofList [22])
  else {}

end Loop

namespace Copies

def main : Method := ⟨0, "main", ⟨0, "Main", false, false⟩, [], [], .void, true, false⟩

def x : Var := ⟨"x", main, .int⟩

def y : Var := ⟨"y", main, .int⟩

def first : Stmt := ⟨⟨0, main⟩, .copy x y, false⟩

def second : Stmt := ⟨⟨1, main⟩, .copy x x, false⟩

/-- A loop of two statements that write the same variable. -/
def graph : Cfg Node :=
  (((Cfg.make (.entry main) (.exit main)).addEdge (.entry main) (.stmt first)).addEdge
    (.stmt first) (.stmt second)).addEdge
    (.stmt second) (.stmt first) |>.addEdge (.stmt second) (.exit main)

theorem built : graph.Built := .addEdge (.addEdge (.addEdge (.addEdge (.make _ _) _ _) _ _) _ _) _ _

end Copies

/-- On the loop of numbers, 22 comes out behind the exit but not behind the entry, into which
nothing passes. On the loop of copies, `y` is live in front of the second statement, as it is read
in the next round, and only the second statement reaches the exit. -/
theorem genKill_computes_paths_loop :
    let p := genKill .forward .union (.ofList [5]) (.ofList [8]) Loop.tokens
    let arrives := Arrives Loop.graph (.ofList [5]) (.ofList [8]) Loop.tokens
    ((p.finds? 20 Loop.graph 22 9 = some true ∧ p.finds? 20 Loop.graph 22 0 = some false) ∧
      arrives 22 9 ∧ ¬ arrives 22 0) ∧
    ((liveVariables.finds? 20 Copies.graph Copies.y (.stmt Copies.second) = some true ∧
        liveVariables.finds? 20 Copies.graph Copies.x (.stmt Copies.first) = some false) ∧
      Live Copies.graph Copies.y (.stmt Copies.second) ∧
        ¬ Live Copies.graph Copies.x (.stmt Copies.first)) ∧
    (reachingDefinitions.finds? 20 Copies.graph Copies.second (.exit Copies.main) = some true ∧
        reachingDefinitions.finds? 20 Copies.graph Copies.first (.exit Copies.main) = some false) ∧
      Reaching Copies.graph Copies.second (.exit Copies.main) ∧
      ¬ Reaching Copies.graph Copies.first (.exit Copies.main) := by
  intro p arrives
  obtain ⟨tokens, -⟩ :=
    genKill_computes_paths.1 Loop.graph (.ofList [5]) (.ofList [8]) Loop.tokens Loop.built
  obtain ⟨live, reaching⟩ := genKill_computes_paths.2 Copies.graph Copies.built
  refine ⟨?_, ?_, ?_⟩
  · have found : p.finds? 20 Loop.graph 22 9 = some true ∧
        p.finds? 20 Loop.graph 22 0 = some false := by
      decide +kernel
    exact ⟨found, (tokens.holds_iff (by decide) found.1).mp rfl,
      mt (tokens.holds_iff (by decide) found.2).mpr Bool.false_ne_true⟩
  · have found : liveVariables.finds? 20 Copies.graph Copies.y (.stmt Copies.second) = some true ∧
        liveVariables.finds? 20 Copies.graph Copies.x (.stmt Copies.first) = some false := by
      decide +kernel
    exact ⟨found, (live.holds_iff (by decide) found.1).mp rfl,
      mt (live.holds_iff (by decide) found.2).mpr Bool.false_ne_true⟩
  · have found :
        reachingDefinitions.finds? 20 Copies.graph Copies.second (.exit Copies.main) = some true ∧
        reachingDefinitions.finds? 20 Copies.graph Copies.first (.exit Copies.main) =
          some false := by
      decide +kernel
    exact ⟨found, (reaching.holds_iff (by decide) found.1).mp rfl,
      mt (reaching.holds_iff (by decide) found.2).mpr Bool.false_ne_true⟩

end StaticAnalysis.Dataflow
