/-!
# Ordered sets

A finite set whose elements keep the order in which they came is a list without duplicates.

* `adjoin` adds one element at the end unless it is there already, `adjoinAll` several.
* `distinct` keeps the first occurrence of every element.

`mem_adjoin` and `nodup_adjoin` say that `adjoin` is insertion into a set; `foldl_adjoinAll` is
about whatever is built by insertions.
-/

namespace StaticAnalysis

variable {α : Type} [DecidableEq α]

/-- Adds an element at the end of an ordered set, unless the set has it. -/
def adjoin (xs : List α) (a : α) : List α :=
  if a ∈ xs then xs else xs ++ [a]

/-- Adds several elements, in order. -/
def adjoinAll (xs ys : List α) : List α :=
  ys.foldl adjoin xs

/-- The elements of a list, each at its first occurrence. -/
def distinct (xs : List α) : List α :=
  adjoinAll [] xs

theorem adjoin_of_mem {xs : List α} {a : α} (h : a ∈ xs) : adjoin xs a = xs := by
  simp [adjoin, h]

theorem adjoin_of_not_mem {xs : List α} {a : α} (h : a ∉ xs) : adjoin xs a = xs ++ [a] := by
  simp [adjoin, h]

@[simp] theorem mem_adjoin {xs : List α} {a b : α} : b ∈ adjoin xs a ↔ b ∈ xs ∨ b = a := by
  by_cases h : a ∈ xs
  · rw [adjoin_of_mem h]
    exact ⟨Or.inl, fun hb => hb.elim id (fun e => e ▸ h)⟩
  · simp [adjoin_of_not_mem h]

theorem nodup_adjoin {xs : List α} (h : xs.Nodup) (a : α) : (adjoin xs a).Nodup := by
  by_cases ha : a ∈ xs
  · rwa [adjoin_of_mem ha]
  · rw [adjoin_of_not_mem ha, List.nodup_append]
    refine ⟨h, by simp, ?_⟩
    intro x hx y hy hxy
    have : y = a := by simpa using hy
    exact ha (this ▸ hxy ▸ hx)

@[simp] theorem mem_adjoinAll {xs ys : List α} {b : α} :
    b ∈ adjoinAll xs ys ↔ b ∈ xs ∨ b ∈ ys := by
  induction ys generalizing xs with
  | nil => simp [adjoinAll]
  | cons y ys ih =>
    have step : adjoinAll xs (y :: ys) = adjoinAll (adjoin xs y) ys := rfl
    rw [step, ih, mem_adjoin, List.mem_cons, or_assoc]

theorem adjoinAll_append (xs ys zs : List α) :
    adjoinAll xs (ys ++ zs) = adjoinAll (adjoinAll xs ys) zs :=
  List.foldl_append

theorem nodup_adjoinAll {xs : List α} (h : xs.Nodup) (ys : List α) : (adjoinAll xs ys).Nodup := by
  induction ys generalizing xs with
  | nil => exact h
  | cons y ys ih => exact ih (nodup_adjoin h y)

@[simp] theorem mem_distinct {xs : List α} {b : α} : b ∈ distinct xs ↔ b ∈ xs := by
  simp [distinct]

theorem nodup_distinct (xs : List α) : (distinct xs).Nodup :=
  nodup_adjoinAll List.nodup_nil xs

/-- Lists with the same members have the same distinct elements, up to order. -/
theorem distinct_perm {xs ys : List α} (h : ∀ a, a ∈ xs ↔ a ∈ ys) :
    (distinct xs).Perm (distinct ys) :=
  (List.perm_ext_iff_of_nodup (nodup_distinct xs) (nodup_distinct ys)).mpr
    fun a => by simp [h a]

/-- If every step inserts elements into a set that can be seen of a value, then a fold inserts them
all. -/
theorem foldl_adjoinAll {β γ : Type} (view : β → List α) {step : β → γ → β} {elems : γ → List α}
    (h : ∀ b c, view (step b c) = adjoinAll (view b) (elems c)) (l : List γ) (b : β) :
    view (l.foldl step b) = adjoinAll (view b) (l.flatMap elems) := by
  induction l generalizing b with
  | nil => rfl
  | cons c l ih => rw [List.foldl_cons, ih, h, List.flatMap_cons, adjoinAll_append]

end StaticAnalysis
