import Mathlib.Logic.Relation
import StaticAnalysis.Proofs.CallGraph.Folding

/-!
# Call graphs that are discovered from their entries

Reachable methods are listed in the order in which they were found. In a graph that was built on the
way, each of them is an entry or was called from a method that had been found before.

* `CallGraph.Calls` — one method has a call edge to another.
* `CallGraph.Found`, `CallGraph.Rooted` — nothing was found before what led to it, and the graph
  hangs together.
* `CallGraph.Unfolds` — a graph got larger; `Found.mono` and `found_of_caller` say that the order of
  discovery is kept.
* `Rooted.mem_reachable_iff` — **the reachable methods are those on paths of call edges from the
  entries**, by induction on the order of discovery.
* `Rooted.dropContexts` — the plain graph is rooted if the one with contexts is: a method is found
  when it first occurs under some context, and its caller has first occurred before.
-/

namespace StaticAnalysis

/-! ### First occurrences -/

section Order

variable {α β : Type} [DecidableEq α] [DecidableEq β]

/-- In the list of first occurrences elements keep their order. -/
theorem FirstOccurrences.idxOf_lt {xs ys : List α} (h : FirstOccurrences xs ys) {a b : α}
    (ha : a ∈ xs) (hb : b ∈ xs) (before : xs.idxOf a < xs.idxOf b) : ys.idxOf a < ys.idxOf b := by
  have la : ys.idxOf a < ys.length := List.idxOf_lt_length_of_mem ((h.mem a).mpr ha)
  have lb : ys.idxOf b < ys.length := List.idxOf_lt_length_of_mem ((h.mem b).mpr hb)
  rcases Nat.lt_trichotomy (ys.idxOf a) (ys.idxOf b) with lt | same | gt
  · exact lt
  · have equal : a = b := by
      rw [← List.getElem_idxOf la, ← List.getElem_idxOf lb]
      simp only [same]
    rw [equal] at before
    omega
  · have reversed := List.pairwise_iff_getElem.mp h.order _ _ lb la gt
    rw [List.getElem_idxOf, List.getElem_idxOf] at reversed
    omega

theorem idxOf_map_le (f : α → β) {xs : List α} {a : α} (ha : a ∈ xs) :
    (xs.map f).idxOf (f a) ≤ xs.idxOf a := by
  induction xs with
  | nil => exact absurd ha List.not_mem_nil
  | cons x xs ih =>
    by_cases here : x = a
    · rw [here, List.map_cons, List.idxOf_cons_self]
      exact Nat.zero_le _
    · have later := ih ((List.mem_cons.mp ha).resolve_left (Ne.symm here))
      rw [List.idxOf_cons_ne xs here, List.map_cons]
      by_cases image : f x = f a
      · rw [image, List.idxOf_cons_self]
        exact Nat.zero_le _
      · rw [List.idxOf_cons_ne _ image]
        omega

/-- The first element with a given image stands where the image first occurs. -/
theorem exists_idxOf_map (f : α → β) {xs : List α} {b : β} (hb : b ∈ xs.map f) :
    ∃ a ∈ xs, f a = b ∧ xs.idxOf a = (xs.map f).idxOf b := by
  induction xs with
  | nil => exact absurd hb List.not_mem_nil
  | cons x xs ih =>
    by_cases image : f x = b
    · refine ⟨x, List.mem_cons_self, image, ?_⟩
      rw [List.map_cons, image, List.idxOf_cons_self, List.idxOf_cons_self]
    · obtain ⟨a, ha, rfl, position⟩ := ih ((List.mem_cons.mp hb).resolve_left (Ne.symm image))
      have other : x ≠ a := fun same => image (congrArg f same)
      refine ⟨a, List.mem_cons_of_mem x ha, rfl, ?_⟩
      rw [List.idxOf_cons_ne xs other, List.map_cons, List.idxOf_cons_ne _ image, position]

end Order

namespace CallGraph

section Rooted

variable {S M : Type} (layout : Layout S M)

/-- A call edge leads from one method to another. -/
def Calls (g : CallGraph S M) (m m' : M) : Prop :=
  ∃ e ∈ g.edges, layout.container e.site = m ∧ e.callee = m'

/-- A method is an entry, or it is called from a method that was found before. -/
def Found [DecidableEq M] (g : CallGraph S M) (m : M) : Prop :=
  m ∈ g.entries ∨
    ∃ e ∈ g.edges, e.callee = m ∧ g.reachable.idxOf (layout.container e.site) < g.reachable.idxOf m

/-- A graph that hangs together from its entries. -/
structure Rooted [DecidableEq M] (g : CallGraph S M) : Prop where
  /-- Calls are made by reachable methods. -/
  container : ∀ e ∈ g.edges, layout.container e.site ∈ g.reachable
  /-- What they call is reachable. -/
  callee : ∀ e ∈ g.edges, e.callee ∈ g.reachable
  entry : ∀ m ∈ g.entries, m ∈ g.reachable
  found : ∀ m ∈ g.reachable, g.Found layout m

/-- A graph got larger, and what had been found stands at its place. -/
structure Unfolds (g g' : CallGraph S M) : Prop where
  entries : g.entries ⊆ g'.entries
  edges : g.edges ⊆ g'.edges
  reachable : g.reachable <+: g'.reachable

theorem Unfolds.of_eq {g g' : CallGraph S M} (h : g' = g) : g.Unfolds g' := by
  rw [h]
  exact ⟨List.Subset.refl _, List.Subset.refl _, List.prefix_refl _⟩

variable {layout} [DecidableEq M] {g g' : CallGraph S M}

/-- What is found later comes behind. -/
theorem Found.mono {m : M} (found : g.Found layout m) (unfolds : g.Unfolds g')
    (callers : ∀ e ∈ g.edges, layout.container e.site ∈ g.reachable) (hm : m ∈ g.reachable) :
    g'.Found layout m := by
  obtain ⟨later, grown⟩ := unfolds.reachable
  rcases found with entry | ⟨e, he, callee, before⟩
  · exact Or.inl (unfolds.entries entry)
  · refine Or.inr ⟨e, unfolds.edges he, callee, ?_⟩
    rw [← grown, List.idxOf_append_of_mem (callers e he), List.idxOf_append_of_mem hm]
    exact before

/-- A callee that is entered comes behind its caller. -/
theorem found_of_caller {e : CallEdge S M} (he : e ∈ g'.edges)
    (grown : g'.reachable = g.reachable ++ [e.callee])
    (caller : layout.container e.site ∈ g.reachable) (new : e.callee ∉ g.reachable) :
    g'.Found layout e.callee := by
  refine Or.inr ⟨e, he, rfl, ?_⟩
  rw [grown, List.idxOf_append_of_mem caller, List.idxOf_append_of_notMem new]
  have inside := List.idxOf_lt_length_of_mem caller
  omega

/-- **The reachable methods are those on paths of call edges from the entries.** -/
theorem Rooted.mem_reachable_iff (h : g.Rooted layout) {m : M} :
    m ∈ g.reachable ↔ ∃ entry ∈ g.entries, Relation.ReflTransGen (g.Calls layout) entry m := by
  constructor
  · -- by induction on the place of the method: its caller stands before it
    generalize place : g.reachable.idxOf m = i
    induction i using Nat.strongRecOn generalizing m with
    | ind i ih =>
      intro hm
      rcases h.found m hm with entry | ⟨e, he, callee, before⟩
      · exact ⟨m, entry, .refl⟩
      · obtain ⟨entry, hentry, path⟩ := ih _ (place ▸ before) rfl (h.container e he)
        exact ⟨entry, hentry, path.tail ⟨e, he, rfl, callee⟩⟩
  · intro ⟨entry, hentry, path⟩
    induction path with
    | refl => exact h.entry entry hentry
    | tail _ call _ =>
      obtain ⟨e, he, -, callee⟩ := call
      exact callee ▸ h.callee e he

end Rooted

/-- **Without contexts a rooted graph stays rooted.** -/
theorem Rooted.dropContexts {code : CodeBase} {g : CallGraph CtxStmt CtxMethod}
    (h : g.Rooted (.contextual code)) : g.dropContexts.Rooted (.plain code) := by
  have reached : ∀ {m : CtxMethod}, m ∈ g.reachable → m.2 ∈ g.dropContexts.reachable :=
    fun {m} hm => g.mem_reachable_dropContexts.mpr ⟨m.1, hm⟩
  refine ⟨?_, ?_, ?_, ?_⟩
  · intro e he
    obtain ⟨e', he', rfl⟩ := g.mem_edges_dropContexts.mp he
    exact reached (h.container e' he')
  · intro e he
    obtain ⟨e', he', rfl⟩ := g.mem_edges_dropContexts.mp he
    exact reached (h.callee e' he')
  · intro m hm
    rw [entries_dropContexts, mem_distinct] at hm
    obtain ⟨m', hm', rfl⟩ := List.mem_map.mp hm
    exact reached (h.entry m' hm')
  · intro m hm
    rw [reachable_dropContexts, mem_distinct] at hm
    -- the first occurrence of the method under any context
    obtain ⟨m', hm', rfl, first⟩ := exists_idxOf_map Prod.snd hm
    rcases h.found m' hm' with entry | ⟨e, he, rfl, before⟩
    · refine Or.inl ?_
      rw [entries_dropContexts, mem_distinct]
      exact List.mem_map_of_mem entry
    · refine Or.inr ⟨e.dropContexts, g.mem_edges_dropContexts.mpr ⟨e, he, rfl⟩, rfl, ?_⟩
      have caller : (e.site.1, e.site.2.method) ∈ g.reachable := h.container e he
      rw [reachable_dropContexts]
      refine (firstOccurrences_distinct _).idxOf_lt (List.mem_map_of_mem caller) hm ?_
      exact Nat.lt_of_le_of_lt (idxOf_map_le Prod.snd caller) (Nat.lt_of_lt_of_eq before first)

end CallGraph

end StaticAnalysis
