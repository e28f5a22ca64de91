import StaticAnalysis.Dataflow.WorkList

/-!
# What a worklist holds

A worklist keeps its elements twice, in a queue and in a set. As long as both agree, adding elements
is insertion into an ordered set, and the queue is all that has to be looked at.

* `WorkList.Faithful` — the queue has no repetitions, and the set holds its elements.
* `Faithful.queue_add`, `Faithful.queue_addAll`, `queue_ofList` — adding is `adjoin`.
* `Faithful.poll` — what is left after the oldest element has been taken is faithful again.
* `Precedes` — one element comes before another, in the order in which a worklist takes them.
-/

namespace StaticAnalysis

section Ordered

variable {α : Type} [DecidableEq α]

/-- Insertion only adds elements behind those that are there. -/
theorem exists_adjoinAll_eq_append (xs ys : List α) :
    ∃ zs, adjoinAll xs ys = xs ++ zs ∧ ∀ z ∈ zs, z ∈ ys ∧ z ∉ xs := by
  induction ys generalizing xs with
  | nil => exact ⟨[], by simp [adjoinAll]⟩
  | cons y ys ih =>
    obtain ⟨zs, heq, hzs⟩ := ih (adjoin xs y)
    have step : adjoinAll xs (y :: ys) = adjoinAll (adjoin xs y) ys := rfl
    rw [step, heq]
    by_cases hy : y ∈ xs
    · rw [adjoin_of_mem hy] at hzs ⊢
      exact ⟨zs, rfl, fun z hz => ⟨List.mem_cons_of_mem y (hzs z hz).1, (hzs z hz).2⟩⟩
    · rw [adjoin_of_not_mem hy] at hzs ⊢
      refine ⟨y :: zs, by simp, ?_⟩
      intro z hz
      rcases List.mem_cons.mp hz with rfl | hz
      · exact ⟨List.mem_cons_self, hy⟩
      · have hnot := (hzs z hz).2
        rw [List.mem_append, not_or] at hnot
        exact ⟨List.mem_cons_of_mem y (hzs z hz).1, hnot.1⟩

/-- A list without repetitions has all its elements at their first occurrence. -/
theorem distinct_of_nodup {xs : List α} (h : xs.Nodup) : distinct xs = xs := by
  have grow : ∀ ys zs : List α, (ys ++ zs).Nodup → adjoinAll ys zs = ys ++ zs := by
    intro ys zs
    induction zs generalizing ys with
    | nil =>
      intro _
      rw [List.append_nil]
      rfl
    | cons z zs ih =>
      intro hnodup
      have hz : z ∉ ys := by
        intro hz
        exact (List.nodup_append.mp hnodup).2.2 z hz z List.mem_cons_self rfl
      have step : adjoinAll ys (z :: zs) = adjoinAll (adjoin ys z) zs := rfl
      have split : ys ++ z :: zs = (ys ++ [z]) ++ zs := by simp
      rw [step, adjoin_of_not_mem hz, split]
      exact ih (ys ++ [z]) (split ▸ hnodup)
  exact grow [] xs h

/-- Some front part of a list has `a` and does not have `b`. -/
def Precedes {α : Type} (xs : List α) (a b : α) : Prop := ∃ ys zs, xs = ys ++ zs ∧ a ∈ ys ∧ b ∉ ys

namespace Precedes

omit [DecidableEq α] in
theorem ne {xs : List α} {a b : α} (h : Precedes xs a b) : a ≠ b := by
  obtain ⟨ys, zs, -, ha, hb⟩ := h
  exact fun e => hb (e ▸ ha)

omit [DecidableEq α] in
/-- A front part that has the second element has the first. -/
theorem mem_left {xs zs : List α} {a b : α} (h : Precedes (xs ++ zs) a b) (hb : b ∈ xs) :
    a ∈ xs := by
  obtain ⟨ys, ws, heq, ha, hnot⟩ := h
  rcases List.append_eq_append_iff.mp heq with ⟨more, rfl, -⟩ | ⟨more, rfl, -⟩
  · exact absurd (List.mem_append_left more hb) hnot
  · exact List.mem_append_left more ha

/-- First occurrences keep their order. -/
theorem distinct {xs : List α} {a b : α} (h : Precedes xs a b) : Precedes (distinct xs) a b := by
  obtain ⟨ys, zs, rfl, ha, hb⟩ := h
  have split : StaticAnalysis.distinct (ys ++ zs) = adjoinAll (StaticAnalysis.distinct ys) zs :=
    List.foldl_append ..
  obtain ⟨added, heq, -⟩ := exists_adjoinAll_eq_append (StaticAnalysis.distinct ys) zs
  exact ⟨StaticAnalysis.distinct ys, added, split.trans heq, mem_distinct.mpr ha,
    fun h => hb (mem_distinct.mp h)⟩

end Precedes

end Ordered

namespace WorkList

variable {α : Type}

/-- The queue holds nothing twice, and the set beside it holds its elements. -/
structure Faithful (w : WorkList α) : Prop where
  nodup : w.queue.Nodup
  mem_pending : ∀ a, a ∈ w.pending ↔ a ∈ w.queue

theorem faithful_empty : ({} : WorkList α).Faithful := ⟨List.nodup_nil, fun _ => Iff.rfl⟩

variable [DecidableEq α]

/-- Elements that are pending already are not added. -/
theorem addAll_of_pending {w : WorkList α} {as : List α} (h : ∀ a ∈ as, a ∈ w.pending) :
    w.addAll as = w := by
  induction as with
  | nil => rfl
  | cons a as ih =>
    have first : w.add a = w := if_pos (h a List.mem_cons_self)
    show (w.add a).addAll as = w
    rw [first]
    exact ih fun b hb => h b (List.mem_cons_of_mem a hb)

theorem poll?_eq_none {w : WorkList α} : w.poll? = none ↔ w.queue = [] := by
  rw [poll?]
  split
  · next empty => exact iff_of_true rfl empty
  · next front => simp [front]

namespace Faithful

variable {w : WorkList α}

theorem queue_add (h : w.Faithful) (a : α) : (w.add a).queue = adjoin w.queue a := by
  by_cases ha : a ∈ w.queue
  · rw [add, if_pos ((h.mem_pending a).mpr ha), adjoin_of_mem ha]
  · rw [add, if_neg (mt (h.mem_pending a).mp ha), adjoin_of_not_mem ha]

theorem add (h : w.Faithful) (a : α) : (w.add a).Faithful := by
  refine ⟨h.queue_add a ▸ nodup_adjoin h.nodup a, ?_⟩
  intro b
  rw [h.queue_add, mem_adjoin]
  by_cases ha : a ∈ w.pending
  · rw [WorkList.add, if_pos ha, h.mem_pending]
    exact ⟨Or.inl, fun hb => hb.elim id fun e => e ▸ (h.mem_pending a).mp ha⟩
  · rw [WorkList.add, if_neg ha, List.mem_cons, h.mem_pending]
    exact or_comm

theorem addAll (h : w.Faithful) (as : List α) : (w.addAll as).Faithful := by
  induction as generalizing w with
  | nil => exact h
  | cons a as ih => exact ih (h.add a)

theorem queue_addAll (h : w.Faithful) (as : List α) :
    (w.addAll as).queue = adjoinAll w.queue as := by
  induction as generalizing w with
  | nil => rfl
  | cons a as ih =>
    show ((w.add a).addAll as).queue = adjoinAll (adjoin w.queue a) as
    rw [ih (h.add a), h.queue_add]

/-- Taking the oldest element leaves a faithful worklist without it. -/
theorem poll (h : w.Faithful) {a : α} {rest : WorkList α} (taken : w.poll? = some (a, rest)) :
    w.queue = a :: rest.queue ∧ rest.Faithful := by
  rw [poll?] at taken
  split at taken
  · contradiction
  · next b queue front =>
    cases taken
    have nodup : (a :: queue).Nodup := front ▸ h.nodup
    refine ⟨front, (List.nodup_cons.mp nodup).2, ?_⟩
    intro b
    have hb := h.mem_pending b
    rw [front, List.mem_cons] at hb
    simp only [List.mem_filter, decide_eq_true_eq, hb]
    constructor
    · rintro ⟨hmem, hne⟩
      exact hmem.resolve_left hne
    · intro hmem
      exact ⟨Or.inr hmem, fun e => (List.nodup_cons.mp nodup).1 (e ▸ hmem)⟩

end Faithful

theorem faithful_ofList (as : List α) : (ofList as).Faithful := faithful_empty.addAll as

theorem queue_ofList (as : List α) : (ofList as).queue = distinct as :=
  faithful_empty.queue_addAll as

end WorkList

end StaticAnalysis
