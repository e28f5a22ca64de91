/-!
# Queues

A `Queue α` hands its elements out in the order in which they came. It keeps the oldest ones in
front and the newer ones, latest first, behind, so that neither end has to be searched for. It also
counts them.

The view of a queue is `toList`, oldest first; `toList_push`, `toList_of_pop?` and
`pop?_eq_none_iff` describe the operations through it.
-/

namespace StaticAnalysis

/-- A queue. The elements in `back` came after those in `front`, the latest one first. -/
structure Queue (α : Type) where
  front : List α := []
  back : List α := []
  /-- The number of elements. -/
  size : Nat := 0
  size_eq : size = front.length + back.length := by rfl
deriving DecidableEq

namespace Queue

variable {α : Type}

/-- The elements, oldest first. -/
def toList (q : Queue α) : List α := q.front ++ q.back.reverse

instance : Membership α (Queue α) := ⟨fun q a => a ∈ q.toList⟩

def isEmpty (q : Queue α) : Bool := q.size == 0

theorem size_cons {q : Queue α} (a : α) : q.size + 1 = q.front.length + (a :: q.back).length := by
  rw [q.size_eq, List.length_cons, Nat.add_assoc]

/-- Puts an element behind all others. -/
def push (q : Queue α) (a : α) : Queue α := ⟨q.front, a :: q.back, q.size + 1, size_cons a⟩

theorem size_tail_of_front {q : Queue α} {a : α} {rest : List α} (h : q.front = a :: rest) :
    q.size - 1 = rest.length + q.back.length := by
  rw [q.size_eq, h, List.length_cons]
  omega

theorem size_tail_of_back {q : Queue α} {a : α} {rest : List α} (hf : q.front = [])
    (hb : q.back.reverse = a :: rest) : q.size - 1 = rest.length + ([] : List α).length := by
  have hl : q.back.length = rest.length + 1 := by
    rw [← List.length_reverse, hb, List.length_cons]
  rw [q.size_eq, hf, hl]
  simp

/-- Takes the oldest element, if there is one. -/
def pop? (q : Queue α) : Option (α × Queue α) :=
  match hf : q.front with
  | a :: rest => some (a, ⟨rest, q.back, q.size - 1, size_tail_of_front hf⟩)
  | [] =>
    match hb : q.back.reverse with
    | a :: rest => some (a, ⟨rest, [], q.size - 1, size_tail_of_back hf hb⟩)
    | [] => none

@[simp] theorem mem_iff {q : Queue α} {a : α} : a ∈ q ↔ a ∈ q.toList := Iff.rfl

@[simp] theorem toList_empty : ({} : Queue α).toList = [] := rfl

@[simp] theorem toList_push (q : Queue α) (a : α) : (q.push a).toList = q.toList ++ [a] := by
  simp [toList, push]

theorem size_eq_length (q : Queue α) : q.size = q.toList.length := by
  rw [q.size_eq, toList, List.length_append, List.length_reverse]

theorem isEmpty_iff {q : Queue α} : q.isEmpty = true ↔ q.toList = [] := by
  rw [isEmpty, beq_iff_eq, size_eq_length, List.length_eq_zero_iff]

theorem toList_of_pop? {q rest : Queue α} {a : α} (h : q.pop? = some (a, rest)) :
    q.toList = a :: rest.toList := by
  unfold pop? at h
  split at h
  · next b front hf =>
    cases h
    simp [toList, hf]
  · next hf =>
    split at h
    · next b front hb =>
      cases h
      simp [toList, hf, hb]
    · contradiction

theorem pop?_eq_none_iff {q : Queue α} : q.pop? = none ↔ q.toList = [] := by
  unfold pop?
  split
  · next b front hf => simp [toList, hf]
  · next hf =>
    split
    · next b front hb => simp [toList, hf, hb]
    · next hb => simp [toList, hf, hb]

end Queue

end StaticAnalysis
