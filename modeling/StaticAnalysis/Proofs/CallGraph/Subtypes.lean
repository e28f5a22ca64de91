import Mathlib.Data.List.Perm.Subperm
import Mathlib.Logic.Relation
import StaticAnalysis.CallGraph.HierarchyAnalysis
import StaticAnalysis.Proofs.Code.Registration
import StaticAnalysis.Proofs.PointsTo.Finiteness

/-!
# The subtypes of a class

What the search through a class hierarchy finds, said without the search.

* `Searches` — breadth-first search without a limit. `searches_explore` says that it ends, if as
  many elements may be taken from the queue as there are to be found, and `Searches.mem_iff` that it
  **finds what can be reached**.
* `Directly` — the direct subtypes in the record of a hierarchy: a class is below its superclass and
  below the interfaces that it names. `Filled.mem_below` says that the tables of the hierarchy
  answer for them.
* `CodeBase.mem_subtypes` — the subtypes of a class are the classes that lead to it by direct steps.

Neither the superclasses nor the interfaces are assumed to be registered or free of cycles.
-/

namespace StaticAnalysis

/-! ### Breadth-first search -/

section Search

variable {α : Type} [DecidableEq α]

/-- What a search that has seen some elements may still find. -/
def unseen (all seen : List α) : List α := all.filter fun a => decide (a ∉ seen)

/-- What is found is no longer to be found. -/
theorem length_unseen_append {all seen fresh : List α} (nodup : fresh.Nodup)
    (found : ∀ b ∈ fresh, b ∈ all ∧ b ∉ seen) :
    fresh.length + (unseen all (seen ++ fresh)).length ≤ (unseen all seen).length := by
  have rest : unseen all (seen ++ fresh) =
      (unseen all seen).filter fun a => !decide (a ∈ fresh) := by
    rw [unseen, unseen, List.filter_filter]
    refine List.filter_congr ?_
    intro a _
    by_cases hseen : a ∈ seen <;> by_cases hfresh : a ∈ fresh <;> simp [hseen, hfresh]
  have part : fresh ⊆ (unseen all seen).filter fun a => decide (a ∈ fresh) := by
    intro b hb
    obtain ⟨hall, hseen⟩ := found b hb
    simp [unseen, hall, hseen, hb]
  have count := List.length_eq_length_filter_add (l := unseen all seen) fun a => decide (a ∈ fresh)
  have fits := (nodup.subperm part).length_le
  rw [rest]
  omega

variable {next : α → List α}

/-- The search without a limit: elements are taken from the queue until it is empty, and the
successors that have not been seen go to its end. -/
inductive Searches (next : α → List α) : List α → List α → List α → Prop where
  | done (seen : List α) : Searches next [] seen seen
  | take {a : α} {queue seen fresh found : List α}
      (new : fresh = distinct ((next a).filter fun b => decide (b ∉ seen)))
      (later : Searches next (queue ++ fresh) (seen ++ fresh) found) :
      Searches next (a :: queue) seen found

/-- What is new among the successors of an element. -/
theorem mem_unseen_successors {seen : List α} {a b : α} :
    b ∈ distinct ((next a).filter fun b => decide (b ∉ seen)) ↔ b ∈ next a ∧ b ∉ seen := by
  simp

/-- **The search ends**, since it may take all that is queued or still to be found. -/
theorem searches_explore {all : List α} (bounded : ∀ a, next a ⊆ all) :
    ∀ (n : Nat) (queue seen : List α), queue.length + (unseen all seen).length ≤ n →
      Searches next queue seen (explore next n queue seen) := by
  intro n
  induction n with
  | zero =>
    intro queue seen enough
    have empty : queue = [] := List.length_eq_zero_iff.mp (by omega)
    subst empty
    exact .done seen
  | succ n ih =>
    intro queue seen enough
    cases queue with
    | nil => exact .done seen
    | cons a queue =>
      rw [explore]
      refine .take rfl (ih _ _ ?_)
      generalize hfresh : distinct ((next a).filter fun b => decide (b ∉ seen)) = fresh
      have found : ∀ d ∈ fresh, d ∈ all ∧ d ∉ seen := by
        intro d hd
        rw [← hfresh, mem_unseen_successors] at hd
        exact ⟨bounded a hd.1, hd.2⟩
      have left : fresh.length + (unseen all (seen ++ fresh)).length ≤ (unseen all seen).length :=
        length_unseen_append (hfresh ▸ nodup_distinct _) found
      rw [List.length_append]
      rw [List.length_cons] at enough
      omega

/-- **The search finds exactly what can be reached** from what it has seen. The queue holds the seen
elements whose successors are not yet seen. -/
theorem Searches.mem_iff {queue seen found : List α} (h : Searches next queue seen found)
    (queued : queue ⊆ seen) (closed : ∀ a ∈ seen, a ∉ queue → next a ⊆ seen) (b : α) :
    b ∈ found ↔ ∃ a ∈ seen, Relation.ReflTransGen (fun a b => b ∈ next a) a b := by
  induction h with
  | done seen =>
    -- with an empty queue, what has been seen has all its successors
    constructor
    · intro hb
      exact ⟨b, hb, .refl⟩
    · rintro ⟨a, ha, path⟩
      induction path with
      | refl => exact ha
      | tail _ step ih => exact closed _ ih List.not_mem_nil step
  | @take a queue seen fresh found new _ ih =>
    have mem_fresh : ∀ d, d ∈ fresh ↔ d ∈ next a ∧ d ∉ seen := by
      intro d
      rw [new, mem_unseen_successors]
    have ha : a ∈ seen := queued List.mem_cons_self
    have queued' : queue ++ fresh ⊆ seen ++ fresh := by
      intro d hd
      rcases List.mem_append.mp hd with hd | hd
      · exact List.mem_append_left _ (queued (List.mem_cons_of_mem _ hd))
      · exact List.mem_append_right _ hd
    have closed' : ∀ d ∈ seen ++ fresh, d ∉ queue ++ fresh → next d ⊆ seen ++ fresh := by
      intro d hd hqueue e he
      rw [List.mem_append, not_or] at hqueue
      have hseen : d ∈ seen := (List.mem_append.mp hd).resolve_right hqueue.2
      by_cases hda : d = a
      · subst hda
        by_cases heseen : e ∈ seen
        · exact List.mem_append_left _ heseen
        · exact List.mem_append_right _ ((mem_fresh e).mpr ⟨he, heseen⟩)
      · have hcons : d ∉ a :: queue := by simp [hda, hqueue.1]
        exact List.mem_append_left _ (closed d hseen hcons he)
    rw [ih queued' closed']
    constructor
    · rintro ⟨d, hd, path⟩
      rcases List.mem_append.mp hd with hd | hd
      · exact ⟨d, hd, path⟩
      · exact ⟨a, ha, path.head ((mem_fresh d).mp hd).1⟩
    · rintro ⟨d, hd, path⟩
      exact ⟨d, List.mem_append_left _ hd, path⟩

end Search

/-! ### Registered classes and their links -/

/-- A class is a direct subtype of another by a link from a list of registered classes and their
links: the other is a class and its superclass, or an interface among its interfaces. -/
def Directly (records : List (Class × Links)) (c above : Class) : Prop :=
  ∃ links, (c, links) ∈ records ∧
    if above.isInterface then above ∈ links.interfaces else links.superclass = some above

namespace Hierarchy

theorem mem_replicate_count {α β : Type} [DecidableEq α] {l : List α} {a : α} {b c : β} :
    b ∈ List.replicate (l.count a) c ↔ a ∈ l ∧ b = c := by
  rw [List.mem_replicate, ← Nat.pos_iff_ne_zero, List.count_pos_iff]

/-- **The tables record the direct subtypes** of the registered classes. -/
theorem Filled.mem_below {h : Hierarchy} {records : List (Class × Links)}
    (filled : h.Filled records) {c above : Class} :
    c ∈ h.below above ↔ Directly records c above := by
  unfold Hierarchy.below Directly
  by_cases ha : above.isInterface = true
  · -- of the two tables the one is for interfaces and the other for all else
    rw [if_pos ha, filled.subinterfacesOf_eq, filled.implementorsOf_eq, List.mem_append,
      List.mem_flatMap, List.mem_flatMap]
    constructor
    · rintro (⟨r, mem, here⟩ | ⟨r, mem, here⟩)
      · split at here
        · obtain ⟨named, rfl⟩ := mem_replicate_count.mp here
          exact ⟨r.2, mem, by rwa [if_pos ha]⟩
        · exact absurd here List.not_mem_nil
      · split at here
        · exact absurd here List.not_mem_nil
        · obtain ⟨named, rfl⟩ := mem_replicate_count.mp here
          exact ⟨r.2, mem, by rwa [if_pos ha]⟩
    · rintro ⟨links, mem, named⟩
      rw [if_pos ha] at named
      by_cases hc : c.isInterface = true
      · refine Or.inl ⟨_, mem, ?_⟩
        rw [if_pos hc]
        exact mem_replicate_count.mpr ⟨named, rfl⟩
      · refine Or.inr ⟨_, mem, ?_⟩
        rw [if_neg hc]
        exact mem_replicate_count.mpr ⟨named, rfl⟩
  · rw [if_neg ha, filled.subclassesOf_eq, List.mem_flatMap]
    constructor
    · rintro ⟨r, mem, here⟩
      split at here
      · next link =>
        rw [List.mem_singleton.mp here]
        exact ⟨r.2, mem, by rwa [if_neg ha]⟩
      · exact absurd here List.not_mem_nil
    · rintro ⟨links, mem, link⟩
      rw [if_neg ha] at link
      refine ⟨_, mem, ?_⟩
      rw [if_pos link]
      exact List.mem_singleton.mpr rfl

/-- All that stands below some class. -/
def allBelow (h : Hierarchy) : List Class :=
  (h.subclasses.values ++ h.subinterfaces.values ++ h.implementors.values).flatten

theorem below_subset_allBelow (h : Hierarchy) (c : Class) : h.below c ⊆ h.allBelow := by
  -- a list that stands in one of the tables is part of all
  have inTable : ∀ (t : Table Class (List Class)) (b : Class), b ∈ t.getD c [] →
      ∃ l ∈ t.values, b ∈ l := by
    intro t b hb
    rcases t.getD_cases c [] with hnone | hsome
    · rw [hnone] at hb
      exact absurd hb List.not_mem_nil
    · exact ⟨_, hsome, hb⟩
  intro b hb
  have place : b ∈ h.subclassesOf c ∨ b ∈ h.subinterfacesOf c ∨ b ∈ h.implementorsOf c := by
    unfold below at hb
    split at hb
    · exact Or.inr (List.mem_append.mp hb)
    · exact Or.inl hb
  rw [allBelow, List.mem_flatten]
  rcases place with hb | hb | hb
  · obtain ⟨l, hl, hbl⟩ := inTable _ b hb
    exact ⟨l, by simp [hl], hbl⟩
  · obtain ⟨l, hl, hbl⟩ := inTable _ b hb
    exact ⟨l, by simp [hl], hbl⟩
  · obtain ⟨l, hl, hbl⟩ := inTable _ b hb
    exact ⟨l, by simp [hl], hbl⟩

end Hierarchy

namespace CodeBase

variable {code : CodeBase}

/-- The search for the subtypes of a class ends. -/
theorem searches_subtypes (code : CodeBase) (c : Class) :
    Searches code.hierarchy.below [c] [c] (code.subtypes c) := by
  refine searches_explore code.hierarchy.below_subset_allBelow _ _ _ ?_
  have fits : (unseen code.hierarchy.allBelow [c]).length ≤ code.hierarchy.allBelow.length :=
    List.length_filter_le _ _
  have count : code.hierarchy.linkCount = code.hierarchy.allBelow.length := rfl
  rw [List.length_singleton]
  omega

/-- The subtypes of a class are what can be reached from it downward. -/
theorem mem_subtypes_iff_reach {c d : Class} : d ∈ code.subtypes c ↔
    Relation.ReflTransGen (fun a b => b ∈ code.hierarchy.below a) c d := by
  have closed : ∀ a ∈ [c], a ∉ [c] → code.hierarchy.below a ⊆ [c] := fun _ ha hna => absurd ha hna
  rw [(code.searches_subtypes c).mem_iff (fun _ ha => ha) closed]
  simp

/-- **The subtypes of a class** are the classes that lead to it by direct steps. -/
theorem mem_subtypes {records : List (Class × Links)} (filled : code.hierarchy.Filled records)
    {c d : Class} : d ∈ code.subtypes c ↔ Relation.ReflTransGen (Directly records) d c := by
  have step : (fun a b => b ∈ code.hierarchy.below a) = Function.swap (Directly records) := by
    funext a b
    exact propext filled.mem_below
  rw [mem_subtypes_iff_reach, step, Relation.reflTransGen_swap]

end CodeBase

end StaticAnalysis
