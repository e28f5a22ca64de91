/-!
# Sorting

`sortBy` puts a list in ascending order of a comparison; elements that occur several times stay.
Where the comparison tells all elements apart the result depends on the elements only and not on
their order: this is `sortBy_eq_of_perm`.

Texts are compared by code point, lists element by element, and a pair by its first component
and then by its second.
-/

namespace StaticAnalysis

/-- The elements of a list in ascending order. -/
def sortBy {α : Type} (cmp : α → α → Ordering) (xs : List α) : List α :=
  xs.mergeSort fun a b => (cmp a b).isLE

theorem sortBy_perm {α : Type} (cmp : α → α → Ordering) (xs : List α) : (sortBy cmp xs).Perm xs :=
  List.mergeSort_perm xs _

@[simp] theorem mem_sortBy {α : Type} {cmp : α → α → Ordering} {a : α} {xs : List α} :
    a ∈ sortBy cmp xs ↔ a ∈ xs :=
  List.mem_mergeSort

section Laws

variable {α : Type} {cmp : α → α → Ordering} [Std.TransCmp cmp]

theorem isLE_total (a b : α) : ((cmp a b).isLE || (cmp b a).isLE) = true := by
  have swapped : cmp b a = (cmp a b).swap := Std.OrientedCmp.eq_swap
  rw [swapped]
  cases cmp a b <;> rfl

theorem pairwise_sortBy (xs : List α) : (sortBy cmp xs).Pairwise fun a b => (cmp a b).isLE :=
  List.pairwise_mergeSort (fun _ _ _ => Std.TransCmp.isLE_trans) isLE_total xs

/-- The sorted list depends on the elements only. -/
theorem sortBy_eq_of_perm [Std.LawfulEqCmp cmp] {xs ys : List α} (h : xs.Perm ys) :
    sortBy cmp xs = sortBy cmp ys := by
  refine List.Perm.eq_of_pairwise ?_ (pairwise_sortBy xs) (pairwise_sortBy ys) ?_
  · intro a b _ _ hab hba
    exact Std.LawfulEqCmp.eq_of_compare (Std.OrientedCmp.isLE_antisymm hab hba)
  · exact (sortBy_perm cmp xs).trans (h.trans (sortBy_perm cmp ys).symm)

end Laws

/-! ### Comparisons of rows -/

/-- Compares pairs by their first components, and where these agree by their second. -/
def comparePairs {α β : Type} (first : α → α → Ordering) (second : β → β → Ordering)
    (x y : α × β) : Ordering :=
  (first x.1 y.1).then (second x.2 y.2)

section Pairs

variable {α β : Type} {f : α → α → Ordering} {g : β → β → Ordering}

instance [Std.OrientedCmp f] [Std.OrientedCmp g] : Std.OrientedCmp (comparePairs f g) where
  eq_swap {x y} := by
    rw [comparePairs, comparePairs, Ordering.swap_then, ← Std.OrientedCmp.eq_swap,
      ← Std.OrientedCmp.eq_swap]

instance [Std.TransCmp f] [Std.TransCmp g] : Std.TransCmp (comparePairs f g) where
  isLE_trans {x y z} hxy hyz := by
    rw [comparePairs, Ordering.isLE_then_iff_and] at hxy hyz ⊢
    refine ⟨Std.TransCmp.isLE_trans hxy.1 hyz.1, ?_⟩
    rcases hxy.2 with hlt | hle
    · exact Or.inl (Std.TransCmp.lt_of_lt_of_isLE hlt hyz.1)
    · rcases hyz.2 with hlt | hle'
      · exact Or.inl (Std.TransCmp.lt_of_isLE_of_lt hxy.1 hlt)
      · exact Or.inr (Std.TransCmp.isLE_trans hle hle')

instance [Std.LawfulEqCmp f] [Std.LawfulEqCmp g] : Std.LawfulEqCmp (comparePairs f g) where
  compare_self {x} := by simp [comparePairs]
  eq_of_compare {x y} h := by
    rw [comparePairs, Ordering.then_eq_eq] at h
    exact Prod.ext (Std.LawfulEqCmp.eq_of_compare h.1) (Std.LawfulEqCmp.eq_of_compare h.2)

end Pairs

/-- Compares texts by code point. -/
def compareTexts (x y : String) : Ordering := compare x y

/-- Compares lists of texts element by element. -/
def compareTextLists (x y : List String) : Ordering := compare x y

/-- Texts in ascending order. -/
def sortTexts (xs : List String) : List String := sortBy compareTexts xs

instance : Std.TransCmp compareTexts := inferInstanceAs (Std.TransOrd String)

instance : Std.LawfulEqCmp compareTexts := inferInstanceAs (Std.LawfulEqOrd String)

instance : Std.TransCmp compareTextLists := inferInstanceAs (Std.TransOrd (List String))

instance : Std.LawfulEqCmp compareTextLists := inferInstanceAs (Std.LawfulEqOrd (List String))

end StaticAnalysis
