import Mathlib.Data.List.Induction
import Mathlib.Data.List.Nodup
import Mathlib.Logic.Relation
import StaticAnalysis.Proofs.Code.Declarations
import StaticAnalysis.Proofs.ControlFlow.Adjacency

/-!
# What control-flow graphs record, and how control falls through a body

Whether an edge is new is asked on the side of its source only. Still both sides record exactly the
edges that were added, whatever was added before.

* `Cfg.Addition`, `Cfg.ofAdditions` — a graph with the sequence of additions that made it.
* `mem_succsOf_ofAdditions`, `nodes_ofAdditions` — its edges and its nodes, read off that sequence.
* `nodeAt`, `nodeAfter` — the place of a statement in a body, and where control goes from it.
* `mem_succsOf_layOut` — the edges that laying out statements adds, by induction on the statements
  that are left.
* `leads_stmt_iff`, `leads_to_exit` — how far control gets.

**Main statement** (`edges_as_added_and_bodies_fall_through`): successors and predecessors are the
two sides of what was added; in the graph of a method every statement has one successor, and a
statement is reached if no statement before it leaves.
-/

namespace StaticAnalysis

namespace Cfg

/-! ### Graphs and what was added to them -/

section Additions

variable {N : Type}

/-- What can be added to a graph. -/
inductive Addition (N : Type) where
  | node (n : N)
  | edge (source target : N)
deriving DecidableEq

/-- The nodes that an addition names. -/
def Addition.ends : Addition N → List N
  | node n => [n]
  | edge source target => [source, target]

variable [DecidableEq N]

def extend (g : Cfg N) : Addition N → Cfg N
  | .node n => g.addNode n
  | .edge source target => g.addEdge source target

/-- The graph after a sequence of additions. -/
def ofAdditions (entry exit : N) (additions : List (Addition N)) : Cfg N :=
  additions.foldl extend (make entry exit)

variable {entry exit : N} {additions : List (Addition N)}

theorem ofAdditions_append (addition : Addition N) :
    ofAdditions entry exit (additions ++ [addition]) =
      (ofAdditions entry exit additions).extend addition := by
  rw [ofAdditions, List.foldl_append]
  rfl

theorem built_ofAdditions (entry exit : N) (additions : List (Addition N)) :
    (ofAdditions entry exit additions).Built := by
  refine List.foldlRecOn additions extend (.make entry exit) ?_
  intro g built addition _
  cases addition with
  | node n => exact built.addNode n
  | edge source target => exact built.addEdge source target

/-- **The successors of a node are those to which an edge was added.** -/
theorem mem_succsOf_ofAdditions {a b : N} :
    b ∈ (ofAdditions entry exit additions).succsOf a ↔ .edge a b ∈ additions := by
  induction additions using List.reverseRecOn with
  | nil => exact iff_of_false List.not_mem_nil List.not_mem_nil
  | append_singleton additions addition ih =>
    rw [ofAdditions_append, List.mem_append, List.mem_singleton, ← ih]
    cases addition with
    | node n =>
      show b ∈ (ofAdditions entry exit additions).succsOf a ↔ _
      simp
    | edge source target =>
      show b ∈ ((ofAdditions entry exit additions).addEdge source target).succsOf a ↔ _
      rw [mem_succsOf_addEdge, Addition.edge.injEq]

theorem nodes_extend (g : Cfg N) (addition : Addition N) :
    (g.extend addition).nodes = adjoinAll g.nodes addition.ends := by
  cases addition with
  | node n => rfl
  | edge source target => exact nodes_addEdge

/-- The nodes in the order in which they were first named. -/
theorem nodes_ofAdditions :
    (ofAdditions entry exit additions).nodes =
      distinct (entry :: exit :: additions.flatMap Addition.ends) :=
  foldl_adjoinAll nodes nodes_extend additions (make entry exit)

end Additions

/-! ### Falling through statements -/

/-- The node at a position of a body: a statement or, behind the last one, the exit. -/
def nodeAt (exit : Node) (stmts : List Stmt) (i : Nat) : Node := (stmts[i]?).elim exit .stmt

/-- Where control goes from a statement at a position. -/
def nodeAfter (exit : Node) (stmts : List Stmt) (i : Nat) (s : Stmt) : Node :=
  if s.isLeave then exit else nodeAt exit stmts (i + 1)

theorem exists_getElem?_cons {α : Type} {x : α} {xs : List α} {P : Nat → α → Prop} :
    (∃ i a, (x :: xs)[i]? = some a ∧ P i a) ↔ P 0 x ∨ ∃ i a, xs[i]? = some a ∧ P (i + 1) a := by
  constructor
  · rintro ⟨i, a, ha, holds⟩
    cases i with
    | zero =>
      cases ha
      exact Or.inl holds
    | succ i => exact Or.inr ⟨i, a, ha, holds⟩
  · rintro (holds | ⟨i, a, ha, holds⟩)
    · exact ⟨0, x, rfl, holds⟩
    · exact ⟨i + 1, a, ha, holds⟩

/-- **Laying out statements** adds an edge from where control stands to the first of them, and one
edge from each of them. -/
theorem mem_succsOf_layOut (g : Cfg Node) (last : Option Node) (stmts : List Stmt) {a b : Node} :
    b ∈ (g.layOut last stmts).succsOf a ↔
      b ∈ g.succsOf a ∨ (last = some a ∧ b = nodeAt g.exit stmts 0) ∨
        ∃ i s, stmts[i]? = some s ∧ a = .stmt s ∧ b = nodeAfter g.exit stmts i s := by
  induction stmts generalizing g last with
  | nil =>
    have none : ¬ ∃ i s, ([] : List Stmt)[i]? = some s ∧ a = .stmt s ∧
        b = nodeAfter g.exit [] i s := by simp
    cases last with
    | none => simp [layOut]
    | some n =>
      rw [layOut, mem_succsOf_addEdge, or_iff_left none, Option.some.injEq, @eq_comm _ n a]
      rfl
  | cons s rest ih =>
    -- the statement is put behind the one before, if control falls through from there
    have next : ∀ g' : Cfg Node, g'.exit = g.exit →
        (b ∈ g'.succsOf a ↔ b ∈ g.succsOf a ∨ (last = some a ∧ b = .stmt s)) →
        (b ∈ (if s.isLeave then layOut (g'.addEdge (.stmt s) g'.exit) none rest
            else layOut g' (some (.stmt s)) rest).succsOf a ↔
          b ∈ g.succsOf a ∨ (last = some a ∧ b = nodeAt g.exit (s :: rest) 0) ∨
            ∃ i t, (s :: rest)[i]? = some t ∧ a = .stmt t ∧
                b = nodeAfter g.exit (s :: rest) i t) := by
      intro g' exit before
      have first : nodeAt g.exit (s :: rest) 0 = .stmt s := rfl
      have later : ∀ i t, nodeAfter g.exit (s :: rest) (i + 1) t = nodeAfter g.exit rest i t :=
        fun i t => rfl
      rw [exists_getElem?_cons, first]
      simp only [later]
      by_cases leave : s.isLeave = true
      · have here : nodeAfter g.exit (s :: rest) 0 s = g.exit := if_pos leave
        rw [if_pos leave, ih, mem_succsOf_addEdge, exit_addEdge, exit, before, here]
        simp only [reduceCtorEq, false_and, false_or, or_assoc]
      · have here : nodeAfter g.exit (s :: rest) 0 s = nodeAt g.exit rest 0 := if_neg leave
        rw [if_neg leave, ih, exit, before, here, Option.some.injEq,
          @eq_comm _ (Node.stmt s) a, or_assoc]
    cases last with
    | none =>
      exact next (g.addNode (.stmt s)) rfl (by simp only [reduceCtorEq, false_and, or_false]; rfl)
    | some n =>
      refine next (g.addEdge n (.stmt s)) exit_addEdge ?_
      rw [mem_succsOf_addEdge, Option.some.injEq, @eq_comm _ n a]

/-- No statement before a position leaves the method. -/
def FallsTo (stmts : List Stmt) (i : Nat) : Prop :=
  ∀ j < i, ∀ t, stmts[j]? = some t → t.isLeave = false

/-- Control can get from one node to another. -/
def Leads {N : Type} [DecidableEq N] (g : Cfg N) : N → N → Prop :=
  Relation.ReflTransGen fun a b => b ∈ g.succsOf a

section Methods

variable {code : CodeBase} {m : Method} {a b : Node} {i : Nat} {s : Stmt}

/-- The edges in the graph of a method. -/
theorem mem_succsOf_ofMethod : b ∈ (ofMethod code m).succsOf a ↔
    (a = .entry m ∧ b = nodeAt (.exit m) (code.body m).stmts 0) ∨
      ∃ i s, (code.body m).stmts[i]? = some s ∧ a = .stmt s ∧
        b = nodeAfter (.exit m) (code.body m).stmts i s := by
  have none : b ∉ (make (.entry m) (.exit m)).succsOf a := List.not_mem_nil
  rw [ofMethod, mem_succsOf_layOut, or_iff_right none, Option.some.injEq,
    @eq_comm _ (Node.entry m) a]
  rfl

theorem nodeAt_eq_stmt {stmts : List Stmt} :
    nodeAt (.exit m) stmts i = .stmt s ↔ stmts[i]? = some s := by
  rw [nodeAt]
  cases stmts[i]? <;> simp

theorem nodeAfter_eq_stmt {stmts : List Stmt} {t : Stmt} :
    nodeAfter (.exit m) stmts i t = .stmt s ↔ t.isLeave = false ∧ stmts[i + 1]? = some s := by
  rw [nodeAfter]
  by_cases leave : t.isLeave = true
  · simp [leave]
  · simp [leave, nodeAt_eq_stmt]

/-- **A statement has one successor.** -/
theorem succsOf_stmt (declared : code.Declared) (hs : (code.body m).stmts[i]? = some s) :
    (ofMethod code m).succsOf (.stmt s) = [nodeAfter (.exit m) (code.body m).stmts i s] := by
  have nodup := ((proper_ofMethod code m).built.nodup_edges (.stmt s)).1
  refine List.perm_singleton.mp
    ((List.perm_ext_iff_of_nodup nodup (List.nodup_singleton _)).mpr fun b => ?_)
  rw [mem_succsOf_ofMethod, List.mem_singleton]
  constructor
  · rintro (⟨entry, -⟩ | ⟨j, t, ht, same, rfl⟩)
    · cases entry
    · cases same
      -- the statement stands once in the body
      rw [declared.position_eq ht hs]
  · rintro rfl
    exact Or.inr ⟨i, s, hs, rfl, rfl⟩

/-- **A statement is reached if and only if none before it leaves the method.** -/
theorem leads_stmt_iff (declared : code.Declared) : (ofMethod code m).Leads (.entry m) (.stmt s) ↔
    ∃ i, (code.body m).stmts[i]? = some s ∧ FallsTo (code.body m).stmts i := by
  constructor
  · intro path
    -- along the path all statements have this property
    have along : ∀ {b : Node}, (ofMethod code m).Leads (.entry m) b → ∀ s, b = .stmt s →
        ∃ i, (code.body m).stmts[i]? = some s ∧ FallsTo (code.body m).stmts i := by
      intro b path
      induction path with
      | refl =>
        intro s entry
        cases entry
      | tail _ step ih =>
        rintro s rfl
        rcases mem_succsOf_ofMethod.mp step with ⟨-, first⟩ | ⟨i, t, ht, rfl, next⟩
        · exact ⟨0, nodeAt_eq_stmt.mp first.symm, fun j hj => absurd hj (Nat.not_lt_zero j)⟩
        · obtain ⟨stays, hs⟩ := nodeAfter_eq_stmt.mp next.symm
          obtain ⟨i', ht', earlier⟩ := ih t rfl
          obtain rfl := declared.position_eq ht' ht
          refine ⟨i' + 1, hs, ?_⟩
          intro j hj u hu
          rcases Nat.lt_succ_iff_lt_or_eq.mp hj with hj | rfl
          · exact earlier j hj u hu
          · rw [Option.some.inj (hu.symm.trans ht)]
            exact stays
    exact along path s rfl
  · rintro ⟨i, hs, earlier⟩
    induction i generalizing s with
    | zero =>
      have first : nodeAt (.exit m) (code.body m).stmts 0 = .stmt s := nodeAt_eq_stmt.mpr hs
      exact .single (mem_succsOf_ofMethod.mpr (Or.inl ⟨rfl, first.symm⟩))
    | succ i ih =>
      have inside : i + 1 < (code.body m).stmts.length := (List.getElem?_eq_some_iff.mp hs).1
      have ht := List.getElem?_eq_getElem (Nat.lt_of_succ_lt inside)
      have path := ih ht fun j hj => earlier j (by omega)
      have next : nodeAfter (.exit m) _ i _ = .stmt s :=
        nodeAfter_eq_stmt.mpr ⟨earlier i (Nat.lt_succ_self i) _ ht, hs⟩
      exact path.tail (mem_succsOf_ofMethod.mpr (Or.inr ⟨i, _, ht, rfl, next.symm⟩))

/-- **From every position control gets to the exit**, by induction on the number of statements that
follow. -/
theorem leads_to_exit (code : CodeBase) (m : Method) (k i : Nat)
    (left : (code.body m).stmts.length ≤ i + k) :
    (ofMethod code m).Leads (nodeAt (.exit m) (code.body m).stmts i) (.exit m) := by
  induction k generalizing i with
  | zero =>
    have none : (code.body m).stmts[i]? = none := List.getElem?_eq_none left
    rw [nodeAt, none]
    exact .refl
  | succ k ih =>
    cases hs : (code.body m).stmts[i]? with
    | none =>
      rw [nodeAt, hs]
      exact .refl
    | some s =>
      have step := mem_succsOf_ofMethod.mpr (Or.inr ⟨i, s, hs, rfl, rfl⟩)
      rw [nodeAt_eq_stmt.mpr hs]
      refine .head step ?_
      rw [nodeAfter]
      split
      · exact .refl
      · exact ih (i + 1) (by omega)

end Methods

/-- **Control-flow graphs record what was added, and control falls through the body of a method.**
After any sequence of additions to a graph:

* a node is a successor of another if and only if that edge was added, and the predecessors say the
  same;
* neither list has repetitions;
* the nodes are the entry, the exit and what the additions name, each once.

In the graph of a method, whose body is made by declarations:

* a statement has exactly one successor, the exit if it leaves the method or is the last one, else
  the next statement;
* the statements that can be reached from the entry are those before which no statement leaves the
  method;
* the exit can always be reached. -/
theorem edges_as_added_and_bodies_fall_through {N : Type} [DecidableEq N] (entry exit : N)
    (additions : List (Addition N)) (code : CodeBase) (declared : code.Declared) (m : Method) :
    ((∀ a b, b ∈ (ofAdditions entry exit additions).succsOf a ↔ .edge a b ∈ additions) ∧
      (∀ a b, a ∈ (ofAdditions entry exit additions).predsOf b ↔ .edge a b ∈ additions) ∧
      (∀ n, ((ofAdditions entry exit additions).succsOf n).Nodup ∧
        ((ofAdditions entry exit additions).predsOf n).Nodup) ∧
      (∀ n, n ∈ (ofAdditions entry exit additions).nodes ↔
        n = entry ∨ n = exit ∨ ∃ addition ∈ additions, n ∈ addition.ends) ∧
      (ofAdditions entry exit additions).nodes.Nodup) ∧
    (∀ i s, (code.body m).stmts[i]? = some s →
      (ofMethod code m).succsOf (.stmt s) =
        [if s.isLeave then .exit m else ((code.body m).stmts[i + 1]?).elim (.exit m) .stmt]) ∧
    (∀ s, (ofMethod code m).Leads (.entry m) (.stmt s) ↔
      ∃ i : Nat, (code.body m).stmts[i]? = some s ∧
        ∀ j < i, ∀ t, (code.body m).stmts[j]? = some t → t.isLeave = false) ∧
    (ofMethod code m).Leads (.entry m) (.exit m) := by
  have built := built_ofAdditions entry exit additions
  refine ⟨⟨fun a b => mem_succsOf_ofAdditions, ?_, built.nodup_edges, ?_,
    built.coherent.nodup⟩, ?_, ?_, ?_⟩
  · intro a b
    rw [← built.coherent.mem_succsOf, mem_succsOf_ofAdditions]
  · intro n
    rw [nodes_ofAdditions, mem_distinct, List.mem_cons, List.mem_cons, List.mem_flatMap]
  · intro i s hs
    exact succsOf_stmt declared hs
  · intro s
    exact leads_stmt_iff declared
  · have step : nodeAt (.exit m) (code.body m).stmts 0 ∈ (ofMethod code m).succsOf (.entry m) :=
      mem_succsOf_ofMethod.mpr (Or.inl ⟨rfl, rfl⟩)
    exact .head step (leads_to_exit code m _ 0 (Nat.le_add_left _ _))

/-! ### A body with statements that are never reached -/

namespace DeadEnd

def door : Class := ⟨0, "Door", false, false⟩

def shut : Method := ⟨0, "shut", door, [], [], .void, true, false⟩

/-- The method without its statements. -/
def heads : CodeBase :=
  let named := (CodeBase.declareClass {} "Door" {} false false).2
  (named.declareMethod door "shut" [] none .void true false).2

/-- The second statement leaves the method; there is a third one. -/
def code : CodeBase :=
  ((heads.append shut .nop false).append shut (.leave none) false).append shut .nop false

theorem declared : code.Declared := by
  have methods : heads.Declared :=
    (CodeBase.Declared.empty.declareClass "Door" {} false false).declareMethod door "shut" [] none
      .void true false
  have first : heads.addStmt shut .nop false = .ok (heads.append shut .nop false) := rfl
  have second : (heads.append shut .nop false).addStmt shut (.leave none) false =
      .ok ((heads.append shut .nop false).append shut (.leave none) false) := rfl
  have third : ((heads.append shut .nop false).append shut (.leave none) false).addStmt
      shut .nop false = .ok code := rfl
  exact ((methods.addStmt first).addStmt second).addStmt third

/-- The statement at a position. -/
def stmt (i : Nat) (op : Op) : Stmt := ⟨⟨i, shut⟩, op, false⟩

/-- An edge from a node to itself, added twice, and one back and forth. -/
def additions : List (Addition Nat) := [.edge 2 2, .edge 2 2, .node 3, .edge 2 0, .edge 0 2]

end DeadEnd

/-- Repeated edges are recorded once. The statement behind a return leads to the exit but is not
reached. -/
theorem edges_as_added_and_bodies_fall_through_dead_end :
    (2 ∈ (ofAdditions 0 1 DeadEnd.additions).predsOf 2 ∧
      ((ofAdditions 0 1 DeadEnd.additions).predsOf 2).Nodup ∧
      3 ∈ (ofAdditions 0 1 DeadEnd.additions).nodes) ∧
    (ofMethod DeadEnd.code DeadEnd.shut).succsOf (.stmt (DeadEnd.stmt 1 (.leave none))) =
      [.exit DeadEnd.shut] ∧
    (ofMethod DeadEnd.code DeadEnd.shut).succsOf (.stmt (DeadEnd.stmt 2 .nop)) =
      [.exit DeadEnd.shut] ∧
    (ofMethod DeadEnd.code DeadEnd.shut).Leads (.entry DeadEnd.shut)
      (.stmt (DeadEnd.stmt 1 (.leave none))) ∧
    ¬ (ofMethod DeadEnd.code DeadEnd.shut).Leads (.entry DeadEnd.shut)
      (.stmt (DeadEnd.stmt 2 .nop)) ∧
    (ofMethod DeadEnd.code DeadEnd.shut).Leads (.entry DeadEnd.shut) (.exit DeadEnd.shut) := by
  have body : (DeadEnd.code.body DeadEnd.shut).stmts =
      [DeadEnd.stmt 0 .nop, DeadEnd.stmt 1 (.leave none), DeadEnd.stmt 2 .nop] := by decide
  obtain ⟨⟨-, preds, nodup, nodes, -⟩, succs, reached, exit⟩ :=
    edges_as_added_and_bodies_fall_through 0 1
    DeadEnd.additions DeadEnd.code DeadEnd.declared DeadEnd.shut
  rw [body] at succs reached
  refine ⟨⟨(preds 2 2).mpr (by decide), (nodup 2).2, (nodes 3).mpr ?_⟩, succs 1 _ rfl,
    succs 2 _ rfl, ?_, ?_, exit⟩
  · exact Or.inr (Or.inr ⟨.node 3, by decide, by decide⟩)
  · refine (reached _).mpr ⟨1, rfl, ?_⟩
    intro j hj t ht
    obtain rfl : j = 0 := by omega
    cases ht
    rfl
  · intro path
    obtain ⟨i, hi, earlier⟩ := (reached _).mp path
    -- the statement stands behind the one that leaves
    match i, hi with
    | 2, _ => exact absurd (earlier 1 (by decide) _ rfl) (by decide)

end Cfg

end StaticAnalysis
