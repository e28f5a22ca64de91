import StaticAnalysis.Collection.Ordered

/-!
# Worklists

A `WorkList` is a queue that holds each element at most once. Beside the queue it keeps the set of
the elements in it, which `add` asks.

* `add` puts an element at the end, unless it is pending.
* `poll?` takes the oldest element, which may be added again from then on.
-/

namespace StaticAnalysis

/-- A queue without repetitions, and the set of its elements. -/
structure WorkList (α : Type) where
  queue : List α := []
  pending : List α := []
deriving DecidableEq

namespace WorkList

variable {α : Type} [DecidableEq α]

/-- Puts an element at the end, unless it is pending. -/
def add (w : WorkList α) (a : α) : WorkList α :=
  if a ∈ w.pending then w else ⟨w.queue ++ [a], a :: w.pending⟩

/-- Adds several elements, in order. -/
def addAll (w : WorkList α) (as : List α) : WorkList α := as.foldl add w

/-- The worklist of the elements of a list. -/
def ofList (as : List α) : WorkList α := addAll {} as

/-- Takes the oldest element, if there is one. -/
def poll? (w : WorkList α) : Option (α × WorkList α) :=
  match w.queue with
  | [] => none
  | a :: rest => some (a, ⟨rest, w.pending.filter fun b => decide (b ≠ a)⟩)

/-- The number of pending elements. -/
def size (w : WorkList α) : Nat := w.queue.length

end WorkList

end StaticAnalysis
