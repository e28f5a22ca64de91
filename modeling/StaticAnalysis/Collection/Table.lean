/-!
# Tables

A `Table κ α` maps keys to values and remembers the order in which its keys were first set.

* `get?` looks a key up, `set` stores a value: a known key keeps its place, a new one goes last.
* `push` adds an element to the list stored under a key.
* `sameAs` compares two tables without regard to the order of their keys.

The view of a table is `get?`; `get?_set_self`, `get?_set_of_ne` and `getD_push` describe the
operations through it. `Indexes` says that a table of lists is an index of a list, and
`Indexes.push` that it stays one.
-/

namespace StaticAnalysis

/-- A finite map that keeps its keys in the order of first insertion. -/
structure Table (κ α : Type) where
  entries : List (κ × α) := []
deriving DecidableEq

namespace Table

variable {κ α : Type}

/-- The table without entries. -/
def empty : Table κ α := ⟨[]⟩

instance : Inhabited (Table κ α) := ⟨empty⟩

/-- The keys, oldest first. -/
def keys (t : Table κ α) : List κ := t.entries.map Prod.fst

/-- The values, in the order of their keys. -/
def values (t : Table κ α) : List α := t.entries.map Prod.snd

/-- The number of keys. -/
def size (t : Table κ α) : Nat := t.entries.length

variable [DecidableEq κ]

/-- The value of the first pair with the given key. -/
def find (k : κ) : List (κ × α) → Option α
  | [] => none
  | (k', a) :: rest => if k' = k then some a else find k rest

/-- Puts a value in the place of the first pair with its key, or at the end. -/
def replace (k : κ) (a : α) : List (κ × α) → List (κ × α)
  | [] => [(k, a)]
  | (k', b) :: rest => if k' = k then (k', a) :: rest else (k', b) :: replace k a rest

/-- The value stored under a key. -/
def get? (t : Table κ α) (k : κ) : Option α := find k t.entries

/-- The value stored under a key, or a given one. -/
def getD (t : Table κ α) (k : κ) (fallback : α) : α := (t.get? k).getD fallback

/-- Whether a key has a value. -/
def contains (t : Table κ α) (k : κ) : Bool := (t.get? k).isSome

/-- Stores a value. A key that is there keeps its place. -/
def set (t : Table κ α) (k : κ) (a : α) : Table κ α := ⟨replace k a t.entries⟩

/-- Takes a key out. -/
def erase (t : Table κ α) (k : κ) : Table κ α :=
  ⟨t.entries.filter fun e => decide (e.1 ≠ k)⟩

/-- Stores the pairs of a list one after the other. -/
def ofList (es : List (κ × α)) : Table κ α :=
  es.foldl (fun t e => t.set e.1 e.2) empty

/-- Adds an element at the end of the list stored under a key. -/
def push (t : Table κ (List α)) (k : κ) (a : α) : Table κ (List α) :=
  t.set k (t.getD k [] ++ [a])

/-- Whether two tables have the same keys with the same values, in whatever order. -/
def sameAs [DecidableEq α] (s t : Table κ α) : Bool :=
  (s.keys ++ t.keys).all fun k => decide (s.get? k = t.get? k)

/-! ### What the operations do to `get?` -/

@[simp] theorem get?_empty (k : κ) : (empty : Table κ α).get? k = none := rfl

theorem find_replace_self (k : κ) (a : α) (es : List (κ × α)) :
    find k (replace k a es) = some a := by
  induction es with
  | nil => simp [replace, find]
  | cons e es ih =>
    obtain ⟨k', b⟩ := e
    by_cases h : k' = k
    · simp [replace, find, h]
    · simp [replace, find, h, ih]

theorem find_replace_of_ne {k l : κ} (h : l ≠ k) (a : α) (es : List (κ × α)) :
    find l (replace k a es) = find l es := by
  induction es with
  | nil => simp [replace, find, Ne.symm h]
  | cons e es ih =>
    obtain ⟨k', b⟩ := e
    by_cases hk : k' = k
    · subst hk
      simp [replace, find, Ne.symm h]
    · by_cases hl : k' = l
      · subst hl
        simp [replace, find, h]
      · simp [replace, find, hk, hl, ih]

@[simp] theorem get?_set_self (t : Table κ α) (k : κ) (a : α) : (t.set k a).get? k = some a :=
  find_replace_self k a t.entries

theorem get?_set_of_ne (t : Table κ α) {k l : κ} (h : l ≠ k) (a : α) :
    (t.set k a).get? l = t.get? l :=
  find_replace_of_ne h a t.entries

theorem get?_set (t : Table κ α) (k l : κ) (a : α) :
    (t.set k a).get? l = if l = k then some a else t.get? l := by
  by_cases h : l = k
  · simp [h]
  · simp [h, get?_set_of_ne t h]

theorem get?_foldl_set (f : κ → α) (ks : List κ) (t : Table κ α) (k : κ) :
    (ks.foldl (fun t k => t.set k (f k)) t).get? k = if k ∈ ks then some (f k) else t.get? k := by
  induction ks generalizing t with
  | nil => simp
  | cons l ks ih =>
    rw [List.foldl_cons, ih, get?_set]
    by_cases hl : k = l <;> by_cases hks : k ∈ ks <;> simp [hl, hks]

theorem find_of_not_mem {k : κ} {es : List (κ × α)} (h : k ∉ es.map Prod.fst) :
    find k es = none := by
  induction es with
  | nil => rfl
  | cons e es ih =>
    obtain ⟨l, a⟩ := e
    rw [List.map_cons, List.mem_cons, not_or] at h
    rw [find, if_neg (Ne.symm h.1), ih h.2]

theorem get?_of_not_mem_keys {t : Table κ α} {k : κ} (h : k ∉ t.keys) : t.get? k = none :=
  find_of_not_mem h

theorem getD_push (t : Table κ (List α)) (k l : κ) (a : α) :
    (t.push k a).getD l [] = if l = k then t.getD l [] ++ [a] else t.getD l [] := by
  by_cases h : l = k
  · subst h
    simp [push, getD]
  · simp [push, getD, get?_set, h]

theorem keys_replace (k : κ) (a : α) (es : List (κ × α)) :
    (replace k a es).map Prod.fst
      = if k ∈ es.map Prod.fst then es.map Prod.fst else es.map Prod.fst ++ [k] := by
  induction es with
  | nil => simp [replace]
  | cons e es ih =>
    obtain ⟨k', b⟩ := e
    by_cases h : k' = k
    · simp [replace, h]
    · by_cases hk : k ∈ es.map Prod.fst
      · rw [if_pos hk] at ih
        rw [if_pos (by simp [hk])]
        simp [replace, h, ih]
      · rw [if_neg hk] at ih
        have hn : k ∉ ((k', b) :: es).map Prod.fst := by
          simp only [List.map_cons, List.mem_cons, not_or]
          exact ⟨Ne.symm h, hk⟩
        rw [if_neg hn]
        simp [replace, h, ih]

/-- Setting a known key changes no key; setting a new one adds it at the end. -/
theorem keys_set (t : Table κ α) (k : κ) (a : α) :
    (t.set k a).keys = if k ∈ t.keys then t.keys else t.keys ++ [k] :=
  keys_replace k a t.entries

/-! ### Tables as indices -/

/-- Under every key stand the elements of a list that have this key, in the order of the list. -/
def Indexes (t : Table κ (List α)) (key : α → Option κ) (l : List α) : Prop :=
  ∀ k, t.getD k [] = l.filter fun a => decide (key a = some k)

namespace Indexes

variable {t : Table κ (List α)} {key : α → Option κ} {l : List α} {a : α}

/-- An element that comes last in the list comes last under its key. -/
theorem push {k : κ} (h : t.Indexes key l) (hk : key a = some k) :
    (t.push k a).Indexes key (l ++ [a]) := by
  intro k'
  rw [getD_push, List.filter_append, h k']
  by_cases same : k' = k
  · simp [same, hk]
  · simp [same, hk, Ne.symm same]

/-- An element without a key needs no place. -/
theorem skip (h : t.Indexes key l) (hk : key a = none) : t.Indexes key (l ++ [a]) := by
  intro k
  rw [h k, List.filter_append]
  simp [hk]

end Indexes

end Table

end StaticAnalysis
