import StaticAnalysis.Collection.Ordered
import StaticAnalysis.Text.Sort

/-!
# Finite sets

A `FinSet α` is a list of elements up to order and repetition, so that two sets with the same
members are equal. The facts of a dataflow problem are such sets: a solver may ask whether a fact
has changed by asking for equality.

* `insert`, `erase`, `union`, `inter`, `diff`, `filter` and `filterMap` are described by their
  `mem_` lemmas.
* `size` counts the members.
* `sortedBy` lists an image of the members in ascending order, with one entry per member.
-/

namespace StaticAnalysis

/-- Lists that have the same members. -/
instance FinSet.sameMembers (α : Type) : Setoid (List α) where
  r xs ys := ∀ a, a ∈ xs ↔ a ∈ ys
  iseqv :=
    { refl := fun _ _ => Iff.rfl
      symm := fun h a => (h a).symm
      trans := fun h₁ h₂ a => (h₁ a).trans (h₂ a) }

/-- A finite set: a list up to the order and the number of occurrences of its elements. -/
def FinSet (α : Type) : Type := Quotient (FinSet.sameMembers α)

namespace FinSet

variable {α β : Type}

theorem mem_congr {xs ys : List α} (h : xs ≈ ys) (a : α) : a ∈ xs ↔ a ∈ ys := h a

/-- The set of the elements of a list. -/
def ofList (xs : List α) : FinSet α := Quotient.mk _ xs

/-- The set without members. -/
def empty : FinSet α := ofList []

instance : Inhabited (FinSet α) := ⟨empty⟩

instance : EmptyCollection (FinSet α) := ⟨empty⟩

/-- Whether an element belongs to a set. -/
def Mem (s : FinSet α) (a : α) : Prop :=
  Quotient.lift (fun xs : List α => a ∈ xs) (fun _ _ h => propext (mem_congr h a)) s

instance : Membership α (FinSet α) := ⟨Mem⟩

@[simp] theorem mem_ofList {a : α} {xs : List α} : a ∈ ofList xs ↔ a ∈ xs := Iff.rfl

@[simp] theorem not_mem_empty {a : α} : ¬ a ∈ (empty : FinSet α) := by
  simp [empty]

/-- Sets with the same members are equal. -/
theorem ext {s t : FinSet α} (h : ∀ a, a ∈ s ↔ a ∈ t) : s = t := by
  induction s using Quotient.ind
  induction t using Quotient.ind
  exact Quotient.sound h

/-- The members that satisfy a condition. -/
def filter (p : α → Bool) (s : FinSet α) : FinSet α :=
  Quotient.lift (fun xs : List α => ofList (xs.filter p))
    (fun _ _ h => Quotient.sound fun a => by simp [mem_congr h a]) s

@[simp] theorem mem_filter {p : α → Bool} {s : FinSet α} {a : α} :
    a ∈ s.filter p ↔ a ∈ s ∧ p a = true := by
  induction s using Quotient.ind
  exact List.mem_filter

/-- The images of the members that have one. -/
def filterMap (f : α → Option β) (s : FinSet α) : FinSet β :=
  Quotient.lift (fun xs : List α => ofList (xs.filterMap f))
    (fun _ _ h => Quotient.sound fun a => by simp [mem_congr h]) s

@[simp] theorem mem_filterMap {f : α → Option β} {s : FinSet α} {b : β} :
    b ∈ s.filterMap f ↔ ∃ a, a ∈ s ∧ f a = some b := by
  induction s using Quotient.ind
  exact List.mem_filterMap

variable [DecidableEq α]

/-- Decides membership. -/
def contains (s : FinSet α) (a : α) : Bool :=
  Quotient.lift (fun xs : List α => decide (a ∈ xs)) (fun _ _ h => by simp [mem_congr h a]) s

@[simp] theorem contains_iff {s : FinSet α} {a : α} : s.contains a = true ↔ a ∈ s := by
  induction s using Quotient.ind
  exact decide_eq_true_iff

instance (s : FinSet α) (a : α) : Decidable (a ∈ s) :=
  decidable_of_iff _ contains_iff

/-- The elements of the first list, and those of the second that it does not have. Equal lists are
noticed at once. -/
def joinLists (xs ys : List α) : List α :=
  if xs = ys then xs else xs ++ ys.filter fun a => decide (a ∉ xs)

theorem mem_joinLists {xs ys : List α} {a : α} : a ∈ joinLists xs ys ↔ a ∈ xs ∨ a ∈ ys := by
  unfold joinLists
  split
  · next h => simp [h]
  · by_cases ha : a ∈ xs <;> simp [ha]

/-- Both sets together. What both have is listed once, so that repeated unions do not grow. -/
def union (s t : FinSet α) : FinSet α :=
  Quotient.lift₂ (fun xs ys : List α => ofList (joinLists xs ys))
    (fun _ _ _ _ h₁ h₂ => Quotient.sound fun a => by
      rw [mem_joinLists, mem_joinLists, mem_congr h₁ a, mem_congr h₂ a]) s t

@[simp] theorem mem_union {s t : FinSet α} {a : α} : a ∈ s.union t ↔ a ∈ s ∨ a ∈ t := by
  induction s using Quotient.ind
  induction t using Quotient.ind
  exact mem_joinLists

/-- Adds an element. -/
def insert (s : FinSet α) (a : α) : FinSet α := s.union (ofList [a])

@[simp] theorem mem_insert {s : FinSet α} {a b : α} : b ∈ s.insert a ↔ b ∈ s ∨ b = a := by
  simp [insert]

/-- Takes an element out. -/
def erase (s : FinSet α) (a : α) : FinSet α := s.filter fun b => decide (b ≠ a)

@[simp] theorem mem_erase {s : FinSet α} {a b : α} : b ∈ s.erase a ↔ b ∈ s ∧ b ≠ a := by
  simp [erase]

/-- The members of the first set that belong to the second. -/
def inter (s t : FinSet α) : FinSet α := s.filter t.contains

@[simp] theorem mem_inter {s t : FinSet α} {a : α} : a ∈ s.inter t ↔ a ∈ s ∧ a ∈ t := by
  simp [inter]

/-- The members of the first set that do not belong to the second. -/
def diff (s t : FinSet α) : FinSet α := s.filter fun a => !t.contains a

@[simp] theorem mem_diff {s t : FinSet α} {a : α} : a ∈ s.diff t ↔ a ∈ s ∧ ¬ a ∈ t := by
  have key : (!t.contains a) = true ↔ ¬ a ∈ t := by
    rw [← contains_iff]
    cases t.contains a <;> simp
  rw [diff, mem_filter, key]

/-- Whether two lists have the same members. Equal lists are noticed at once. -/
def sameList (xs ys : List α) : Bool :=
  decide (xs = ys) || xs.all (fun a => decide (a ∈ ys)) && ys.all (fun a => decide (a ∈ xs))

theorem sameList_iff {xs ys : List α} : sameList xs ys = true ↔ ∀ a, a ∈ xs ↔ a ∈ ys := by
  simp only [sameList, Bool.or_eq_true, Bool.and_eq_true, List.all_eq_true, decide_eq_true_eq]
  refine ⟨?_, fun h => Or.inr ⟨fun a => (h a).mp, fun a => (h a).mpr⟩⟩
  rintro (rfl | h) a
  · exact Iff.rfl
  · exact ⟨h.1 a, h.2 a⟩

instance (xs ys : List α) : Decidable (xs ≈ ys) := decidable_of_iff _ sameList_iff

instance : DecidableEq (FinSet α) := inferInstanceAs (DecidableEq (Quotient (sameMembers α)))

/-- The number of members. -/
def size (s : FinSet α) : Nat :=
  Quotient.lift (fun xs : List α => (distinct xs).length)
    (fun _ _ h => (distinct_perm h).length_eq) s

/-- The images of the members in ascending order, one for each member. -/
def sortedBy (cmp : β → β → Ordering) [Std.TransCmp cmp] [Std.LawfulEqCmp cmp] (f : α → β)
    (s : FinSet α) : List β :=
  Quotient.lift (fun xs : List α => sortBy cmp ((distinct xs).map f))
    (fun _ _ h => sortBy_eq_of_perm ((distinct_perm h).map f)) s

/-- The texts of the members in ascending order. -/
def texts (f : α → String) (s : FinSet α) : List String := s.sortedBy compareTexts f

end FinSet

end StaticAnalysis
