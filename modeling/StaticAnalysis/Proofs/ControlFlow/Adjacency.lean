import StaticAnalysis.ControlFlow.Cfg

/-!
# Successors and predecessors

A control-flow graph keeps its edges twice. All graphs that come from `Cfg.make` by adding nodes and
edges keep them alike, and have the entry as their first node.

* `Cfg.Built` — the graphs that the operations give.
* `Cfg.Coherent` — one edge relation, between nodes that are there. `Built.coherent` and
  `Coherent.reverse` say which graphs have it.
* `Cfg.Proper` — graphs whose entry leads only to other nodes; `Cfg.proper_ofMethod` says it of the
  graphs of methods.
-/

namespace StaticAnalysis

namespace Cfg

variable {N : Type} [DecidableEq N]

/-- A graph that was built by the operations. -/
inductive Built : Cfg N → Prop where
  | make (entry exit : N) : Built (make entry exit)
  | addNode {g : Cfg N} (h : Built g) (n : N) : Built (g.addNode n)
  | addEdge {g : Cfg N} (h : Built g) (source target : N) : Built (g.addEdge source target)

/-- Successors and predecessors are the two sides of one relation between the nodes, which are
listed once. -/
structure Coherent (g : Cfg N) : Prop where
  nodup : g.nodes.Nodup
  entry_mem : g.entry ∈ g.nodes
  exit_mem : g.exit ∈ g.nodes
  mem_succsOf : ∀ a b, b ∈ g.succsOf a ↔ a ∈ g.predsOf b
  ends : ∀ a b, b ∈ g.succsOf a → a ∈ g.nodes ∧ b ∈ g.nodes

/-- Turning all edges round exchanges the two sides. -/
theorem Coherent.reverse {g : Cfg N} (h : g.Coherent) : g.reverse.Coherent where
  nodup := h.nodup
  entry_mem := h.exit_mem
  exit_mem := h.entry_mem
  mem_succsOf a b := (h.mem_succsOf b a).symm
  ends a b hb := (h.ends b a ((h.mem_succsOf b a).mpr hb)).symm

/-! ### What the operations do -/

section Operations

variable {g : Cfg N} {source target a b n : N}

theorem nodes_addEdge :
    (g.addEdge source target).nodes = adjoin (adjoin g.nodes source) target := by
  unfold addEdge
  dsimp only
  split <;> rfl

theorem entry_addEdge : (g.addEdge source target).entry = g.entry := by
  unfold addEdge
  dsimp only
  split <;> rfl

theorem exit_addEdge : (g.addEdge source target).exit = g.exit := by
  unfold addEdge
  dsimp only
  split <;> rfl

theorem mem_succsOf_addEdge :
    b ∈ (g.addEdge source target).succsOf a ↔ b ∈ g.succsOf a ∨ (a = source ∧ b = target) := by
  unfold addEdge
  dsimp only
  split
  · next known =>
    refine ⟨Or.inl, fun h => h.elim id ?_⟩
    rintro ⟨rfl, rfl⟩
    exact known
  · show b ∈ (g.succs.push source target).getD a [] ↔ _
    rw [Table.getD_push]
    by_cases ha : a = source
    · simp [ha, succsOf]
    · simp [ha, succsOf]

/-- A new edge is entered on both sides; whether it is new is asked on one. -/
theorem mem_predsOf_addEdge (h : g.Coherent) :
    a ∈ (g.addEdge source target).predsOf b ↔ a ∈ g.predsOf b ∨ (a = source ∧ b = target) := by
  unfold addEdge
  dsimp only
  split
  · next known =>
    refine ⟨Or.inl, fun hab => hab.elim id ?_⟩
    rintro ⟨rfl, rfl⟩
    exact (h.mem_succsOf a b).mp known
  · show a ∈ (g.preds.push target source).getD b [] ↔ _
    rw [Table.getD_push]
    by_cases hb : b = target
    · simp [hb, predsOf]
    · simp [hb, predsOf]

theorem Coherent.make (entry exit : N) : (make entry exit).Coherent where
  nodup := nodup_adjoin (by simp) exit
  entry_mem := mem_adjoin.mpr (Or.inl List.mem_cons_self)
  exit_mem := mem_adjoin.mpr (Or.inr rfl)
  mem_succsOf _ _ := iff_of_false List.not_mem_nil List.not_mem_nil
  ends _ _ h := absurd h List.not_mem_nil

theorem Coherent.addNode (h : g.Coherent) (n : N) : (g.addNode n).Coherent where
  nodup := nodup_adjoin h.nodup n
  entry_mem := mem_adjoin.mpr (Or.inl h.entry_mem)
  exit_mem := mem_adjoin.mpr (Or.inl h.exit_mem)
  mem_succsOf := h.mem_succsOf
  ends a b hb :=
    ⟨mem_adjoin.mpr (Or.inl (h.ends a b hb).1), mem_adjoin.mpr (Or.inl (h.ends a b hb).2)⟩

theorem Coherent.addEdge (h : g.Coherent) (source target : N) :
    (g.addEdge source target).Coherent := by
  have known : ∀ m ∈ g.nodes, m ∈ (g.addEdge source target).nodes := by
    intro m hm
    rw [nodes_addEdge]
    exact mem_adjoin.mpr (Or.inl (mem_adjoin.mpr (Or.inl hm)))
  refine ⟨?_, ?_, ?_, ?_, ?_⟩
  · rw [nodes_addEdge]
    exact nodup_adjoin (nodup_adjoin h.nodup source) target
  · rw [entry_addEdge]
    exact known _ h.entry_mem
  · rw [exit_addEdge]
    exact known _ h.exit_mem
  · intro a b
    rw [mem_succsOf_addEdge, mem_predsOf_addEdge h, h.mem_succsOf]
  · intro a b hb
    rcases mem_succsOf_addEdge.mp hb with hb | ⟨rfl, rfl⟩
    · exact ⟨known a (h.ends a b hb).1, known b (h.ends a b hb).2⟩
    · rw [nodes_addEdge]
      exact ⟨mem_adjoin.mpr (Or.inl (mem_adjoin.mpr (Or.inr rfl))), mem_adjoin.mpr (Or.inr rfl)⟩

end Operations

namespace Built

variable {g : Cfg N}

theorem coherent (h : g.Built) : g.Coherent := by
  induction h with
  | make entry exit => exact .make entry exit
  | addNode _ n ih => exact ih.addNode n
  | addEdge _ source target ih => exact ih.addEdge source target

/-- No edge is listed twice, on either side. -/
theorem nodup_edges (h : g.Built) (n : N) : (g.succsOf n).Nodup ∧ (g.predsOf n).Nodup := by
  induction h with
  | make entry exit => exact ⟨List.nodup_nil, List.nodup_nil⟩
  | addNode _ m ih => exact ih
  | @addEdge g built source target ih =>
    unfold Cfg.addEdge
    dsimp only
    split
    · exact ih
    · next new =>
      have new : target ∉ g.succsOf source := new
      have new' : source ∉ g.predsOf target := mt (built.coherent.mem_succsOf source target).mpr new
      refine ⟨?_, ?_⟩
      · show ((g.succs.push source target).getD n []).Nodup
        rw [Table.getD_push]
        split
        · next hn =>
          subst hn
          exact adjoin_of_not_mem new ▸ nodup_adjoin ih.1 target
        · exact ih.1
      · show ((g.preds.push target source).getD n []).Nodup
        rw [Table.getD_push]
        split
        · next hn =>
          subst hn
          exact adjoin_of_not_mem new' ▸ nodup_adjoin ih.2 source
        · exact ih.2

/-- The entry is the first node. -/
theorem nodes_eq_cons (h : g.Built) : ∃ later, g.nodes = g.entry :: later := by
  have grow : ∀ {entry n : N} {nodes : List N}, (∃ later, nodes = entry :: later) →
      ∃ later, adjoin nodes n = entry :: later := by
    rintro entry n nodes ⟨later, rfl⟩
    obtain ⟨added, heq⟩ : ∃ added, adjoin (entry :: later) n = (entry :: later) ++ added := by
      unfold adjoin
      split
      · exact ⟨[], (List.append_nil _).symm⟩
      · exact ⟨[n], rfl⟩
    exact ⟨later ++ added, heq⟩
  induction h with
  | make entry exit => exact grow ⟨[], rfl⟩
  | addNode _ n ih => exact grow ih
  | addEdge _ source target ih =>
    rw [nodes_addEdge, entry_addEdge]
    exact grow (grow ih)

end Built

/-! ### Graphs of methods -/

/-- A graph whose entry is no statement, is not the exit, and does not lead to itself. -/
structure Proper (g : Cfg Node) : Prop where
  built : g.Built
  entry_stmt : g.entry.stmt? = none
  entry_ne_exit : g.entry ≠ g.exit
  entry_not_succ : g.entry ∉ g.succsOf g.entry

theorem Proper.addNode {g : Cfg Node} (h : g.Proper) (n : Node) : (g.addNode n).Proper :=
  ⟨h.built.addNode n, h.entry_stmt, h.entry_ne_exit, h.entry_not_succ⟩

theorem Proper.addEdge {g : Cfg Node} (h : g.Proper) (source target : Node)
    (ht : target ≠ g.entry) : (g.addEdge source target).Proper := by
  refine ⟨h.built.addEdge source target, ?_, ?_, ?_⟩
  · rw [entry_addEdge]
    exact h.entry_stmt
  · rw [entry_addEdge, exit_addEdge]
    exact h.entry_ne_exit
  · rw [entry_addEdge, mem_succsOf_addEdge, not_or]
    exact ⟨h.entry_not_succ, fun e => ht e.2.symm⟩

theorem Proper.stmt_ne_entry {g : Cfg Node} (h : g.Proper) (s : Stmt) : Node.stmt s ≠ g.entry := by
  intro e
  have entry := h.entry_stmt
  rw [← e] at entry
  exact nomatch entry

theorem Proper.layOut {g : Cfg Node} (h : g.Proper) (last : Option Node) (stmts : List Stmt) :
    (g.layOut last stmts).Proper := by
  induction stmts generalizing g last with
  | nil =>
    cases last with
    | none => exact h
    | some n => exact h.addEdge n g.exit h.entry_ne_exit.symm
  | cons s rest ih =>
    -- the rest is laid out behind the statement, or behind nothing
    have next : ∀ g' : Cfg Node, g'.Proper →
        (if s.isLeave then Cfg.layOut (g'.addEdge (.stmt s) g'.exit) none rest
          else Cfg.layOut g' (some (.stmt s)) rest).Proper := by
      intro g' h'
      split
      · exact ih (h'.addEdge _ _ h'.entry_ne_exit.symm) none
      · exact ih h' _
    cases last with
    | none => exact next _ (h.addNode _)
    | some n => exact next _ (h.addEdge n _ (h.stmt_ne_entry s))

/-- The graphs of methods are proper. -/
theorem proper_ofMethod (code : CodeBase) (m : Method) : (ofMethod code m).Proper := by
  refine Proper.layOut ⟨.make _ _, rfl, ?_, List.not_mem_nil⟩ _ _
  intro e
  exact nomatch e

end Cfg

end StaticAnalysis
