import Mathlib.Data.List.Basic
import Mathlib.Data.Nat.Find
import StaticAnalysis.Code.Fault
import StaticAnalysis.Proofs.Dataflow.WorkList

/-!
# Worklists over time

What a worklist is asked for and what it answers is a history: elements are added and taken, in some
order. Whether an element is pending, and since when, can be read off the history alone, and that is
what the worklist goes by.

* `WorkList.perform` — carries out a request; `WorkList.history` — what has happened after a
  sequence of requests.
* `Pending`, `PendingSince`, `Answers` — notions about histories, which know nothing of queues.
* `Arises` — the worklists that come from the empty one by additions and removals, one event after
  the other.
* `Tracks` — **the queue lists what is pending, in the order in which it became so.** `Tracks.added`
  and `Tracks.taken` are its steps, `Arises.tracks` is the invariant.
* `taken_mem_log` — an element is taken after as many removals as there are elements up to it.

**Main statement** (`additions_answered_in_order`): the worklist takes what has been pending
longest, and additions of elements that are not pending and removals answer each other one to one.
-/

namespace StaticAnalysis

namespace WorkList

/-! ### Requests and histories -/

/-- What a worklist can be asked for. -/
inductive Request (α : Type) where
  | add (a : α)
  | addAll (as : List α)
  | poll
deriving DecidableEq

/-- What happens to a worklist. An element is added also if it is pending, though nothing comes of
it. -/
inductive Event (α : Type) where
  | added (a : α)
  | taken (a : α)
deriving DecidableEq

namespace Request

variable {α : Type}

def isPoll : Request α → Bool
  | poll => true
  | _ => false

/-- What has happened when a request was answered. -/
def events : Request α → Except Fault (Option α) → List (Event α)
  | add a, _ => [.added a]
  | addAll as, _ => as.map .added
  | poll, .ok (some a) => [.taken a]
  | poll, _ => []

end Request

section Requests

variable {α : Type} [DecidableEq α]

/-- Carries out a request: the answer, and the worklist after it. There is nothing to take from an
empty worklist. -/
def perform (w : WorkList α) : Request α → Except Fault (Option α) × WorkList α
  | .add a => (.ok none, w.add a)
  | .addAll as => (.ok none, w.addAll as)
  | .poll =>
    match w.poll? with
    | some (a, rest) => (.ok (some a), rest)
    | none => (.error .emptyWorkList, w)

/-- The worklist after a sequence of requests. -/
def performAll (w : WorkList α) (requests : List (Request α)) : WorkList α :=
  requests.foldl (fun w r => (w.perform r).2) w

/-- What happens in a sequence of requests. -/
def log (w : WorkList α) : List (Request α) → List (Event α)
  | [] => []
  | r :: requests => r.events (w.perform r).1 ++ log (w.perform r).2 requests

/-- The worklist of a list, after a sequence of requests. -/
def after (init : List α) (requests : List (Request α)) : WorkList α :=
  (ofList init).performAll requests

/-- All that has happened to the worklist of a list: its elements were added, and then the requests
were carried out. -/
def history (init : List α) (requests : List (Request α)) : List (Event α) :=
  init.map .added ++ (ofList init).log requests

theorem log_append (w : WorkList α) (requests later : List (Request α)) :
    w.log (requests ++ later) = w.log requests ++ (w.performAll requests).log later := by
  induction requests generalizing w with
  | nil => rfl
  | cons r requests ih =>
    show r.events _ ++ (w.perform r).2.log (requests ++ later) =
      (r.events _ ++ (w.perform r).2.log requests) ++ _
    rw [ih, List.append_assoc]
    rfl

theorem history_append (init : List α) (requests later : List (Request α)) :
    history init (requests ++ later) =
      history init requests ++ (after init requests).log later := by
  rw [history, log_append, ← List.append_assoc]
  rfl

end Requests

/-! ### What is pending in a history -/

section Histories

variable {α : Type} {h t : List (Event α)} {e : Event α} {a : α} {i j : Nat}

/-- The element was added, and it has not been taken since. -/
def Pending (h : List (Event α)) (a : α) : Prop :=
  ∃ i : Nat, h[i]? = some (.added a) ∧ ∀ j, i < j → h[j]? ≠ some (.taken a)

/-- The element was added at a place where it was not pending, and it has not been taken since. -/
def PendingSince (h : List (Event α)) (a : α) (i : Nat) : Prop :=
  h[i]? = some (.added a) ∧ ¬ Pending (h.take i) a ∧ ∀ j, i < j → h[j]? ≠ some (.taken a)

/-- The element is taken at place `j`, where it has been pending since place `i`. -/
def Answers (h : List (Event α)) (a : α) (i j : Nat) : Prop :=
  PendingSince (h.take j) a i ∧ h[j]? = some (.taken a)

theorem lt_length_of_getElem? (he : h[i]? = some e) : i < h.length :=
  (List.getElem?_eq_some_iff.mp he).1

theorem getElem?_of_take (he : (h.take j)[i]? = some e) : h[i]? = some e := by
  have here := lt_length_of_getElem? he
  rw [List.length_take] at here
  rwa [List.getElem?_take_of_lt (by omega)] at he

theorem getElem?_append_singleton : (h ++ [e])[i]? = if i = h.length then some e else h[i]? := by
  rcases Nat.lt_trichotomy i h.length with lt | rfl | gt
  · rw [if_neg (by omega), List.getElem?_append_left lt]
  · simp
  · rw [if_neg (by omega), List.getElem?_eq_none (by simp; omega), List.getElem?_eq_none (by omega)]

/-- There is no removal behind the last place. -/
theorem untaken_of_length_le (last : h.length ≤ i + 1) (j : Nat) (later : i < j) :
    h[j]? ≠ some (.taken a) := by
  rw [List.getElem?_eq_none (by omega)]
  exact fun none => nomatch none

/-- Nothing is taken from a place on if nothing was before, and not in the end either. -/
theorem untaken_append_singleton (before : i < h.length) :
    (∀ j, i < j → (h ++ [e])[j]? ≠ some (.taken a)) ↔
      (∀ j, i < j → h[j]? ≠ some (.taken a)) ∧ e ≠ .taken a := by
  constructor
  · intro untaken
    refine ⟨?_, ?_⟩
    · intro j later taken
      have here := lt_length_of_getElem? taken
      exact untaken j later (by rwa [List.getElem?_append_left here])
    · rintro rfl
      exact untaken h.length before (by simp)
  · rintro ⟨untaken, other⟩ j later
    rw [getElem?_append_singleton]
    split
    · exact fun last => other (Option.some.inj last)
    · exact untaken j later

/-- What comes last decides, if it is about the element; otherwise it is as before. -/
theorem pending_append_singleton :
    Pending (h ++ [e]) a ↔ e = .added a ∨ (Pending h a ∧ e ≠ .taken a) := by
  constructor
  · intro ⟨i, added, untaken⟩
    rw [getElem?_append_singleton] at added
    split at added
    · exact Or.inl (Option.some.inj added)
    · rw [untaken_append_singleton (lt_length_of_getElem? added)] at untaken
      exact Or.inr ⟨⟨i, added, untaken.1⟩, untaken.2⟩
  · intro cases
    rcases cases with rfl | ⟨⟨i, added, untaken⟩, other⟩
    · exact ⟨h.length, by simp, untaken_of_length_le (by simp)⟩
    · have before := lt_length_of_getElem? added
      exact ⟨i, by rwa [List.getElem?_append_left before],
        (untaken_append_singleton before).mpr ⟨untaken, other⟩⟩

/-- An element stays pending since the same place until it is taken, and becomes pending when it is
added and is not. -/
theorem pendingSince_append_singleton : PendingSince (h ++ [e]) a i ↔
    (PendingSince h a i ∧ e ≠ .taken a) ∨ (e = .added a ∧ ¬ Pending h a ∧ i = h.length) := by
  constructor
  · intro ⟨added, fresh, untaken⟩
    rw [getElem?_append_singleton] at added
    split at added
    · next last =>
      rw [last, List.take_left] at fresh
      exact Or.inr ⟨Option.some.inj added, fresh, last⟩
    · have before := lt_length_of_getElem? added
      rw [List.take_append_of_le_length (Nat.le_of_lt before)] at fresh
      rw [untaken_append_singleton before] at untaken
      exact Or.inl ⟨⟨added, fresh, untaken.1⟩, untaken.2⟩
  · intro cases
    rcases cases with ⟨⟨added, fresh, untaken⟩, other⟩ | ⟨rfl, fresh, rfl⟩
    · have before := lt_length_of_getElem? added
      exact ⟨by rwa [List.getElem?_append_left before],
        by rwa [List.take_append_of_le_length (Nat.le_of_lt before)],
        (untaken_append_singleton before).mpr ⟨untaken, other⟩⟩
    · exact ⟨by simp, by rwa [List.take_left], untaken_of_length_le (by simp)⟩

theorem not_pending_nil : ¬ Pending ([] : List (Event α)) a := fun ⟨_, added, _⟩ => nomatch added

theorem not_pendingSince_nil : ¬ PendingSince ([] : List (Event α)) a i :=
  fun ⟨added, _⟩ => nomatch added

/-- An element is pending since one place only: at a later one it was pending already. -/
theorem PendingSince.unique (hi : PendingSince h a i) (hj : PendingSince h a j) : i = j := by
  have ordered : ∀ {i j : Nat}, PendingSince h a i → PendingSince h a j → ¬ i < j := by
    rintro i j ⟨added, -, untaken⟩ ⟨-, fresh, -⟩ lt
    refine fresh ⟨i, by rwa [List.getElem?_take_of_lt lt], ?_⟩
    intro k later taken
    exact untaken k later (getElem?_of_take taken)
  have le := ordered hi hj
  have ge := ordered hj hi
  omega

theorem Answers.lt (h : Answers t a i j) : i < j := by
  have here := lt_length_of_getElem? h.1.1
  rw [List.length_take] at here
  omega

/-- An addition is answered once: after the first removal the element is not pending since that
place any more. -/
theorem Answers.unique {k : Nat} (hj : Answers h a i j) (hk : Answers h a i k) : j = k := by
  have ordered : ∀ {j k : Nat}, Answers h a i j → Answers h a i k → ¬ j < k := by
    intro j k hj hk lt
    exact hk.1.2.2 j hj.lt (by rw [List.getElem?_take_of_lt lt, hj.2])
  have le := ordered hj hk
  have ge := ordered hk hj
  omega

/-- An element that is added when it is not pending is pending since then, unless it is taken
later. -/
theorem pendingSince_or_answers (added : h[i]? = some (.added a)) (fresh : ¬ Pending (h.take i) a) :
    PendingSince h a i ∨ ∃ j, Answers h a i j := by
  by_cases untaken : ∀ j, i < j → h[j]? ≠ some (.taken a)
  · exact Or.inl ⟨added, fresh, untaken⟩
  · -- of the removals after the addition, the first is the answer
    push Not at untaken
    classical
    obtain ⟨later, taken⟩ := Nat.find_spec untaken
    refine Or.inr ⟨Nat.find untaken, ⟨?_, ?_, ?_⟩, taken⟩
    · rwa [List.getElem?_take_of_lt later]
    · rwa [List.take_take, Nat.min_eq_left (Nat.le_of_lt later)]
    · intro k after here
      have before := lt_length_of_getElem? here
      rw [List.length_take] at before
      exact Nat.find_min untaken (by omega) ⟨after, getElem?_of_take here⟩

end Histories

/-! ### Worklists and their histories -/

section Arising

variable {α : Type} [DecidableEq α] {h : List (Event α)} {w rest : WorkList α} {a : α}

/-- The worklist that a history leads to, from the empty one on. -/
inductive Arises : List (Event α) → WorkList α → Prop where
  | empty : Arises [] {}
  | added {h : List (Event α)} {w : WorkList α} (arises : Arises h w) (a : α) :
      Arises (h ++ [.added a]) (w.add a)
  | taken {h : List (Event α)} {w rest : WorkList α} {a : α} (arises : Arises h w)
      (polled : w.poll? = some (a, rest)) :
      Arises (h ++ [.taken a]) rest

namespace Arises

theorem addAll (arises : Arises h w) (as : List α) : Arises (h ++ as.map .added) (w.addAll as) := by
  induction as generalizing h w with
  | nil =>
    rw [List.map_nil, List.append_nil]
    exact arises
  | cons a as ih =>
    have rest := ih (arises.added a)
    rwa [List.append_assoc] at rest

theorem perform (arises : Arises h w) (r : Request α) :
    Arises (h ++ r.events (w.perform r).1) (w.perform r).2 := by
  cases r with
  | add a => exact arises.added a
  | addAll as => exact arises.addAll as
  | poll =>
    cases polled : w.poll? with
    | none =>
      have same : w.perform .poll = (.error .emptyWorkList, w) := by rw [WorkList.perform, polled]
      have nothing : Request.poll.events (.error .emptyWorkList : Except Fault (Option α)) = [] :=
        rfl
      rw [same, nothing, List.append_nil]
      exact arises
    | some p =>
      have next : w.perform .poll = (.ok (some p.1), p.2) := by rw [WorkList.perform, polled]
      rw [next]
      exact arises.taken polled

theorem performAll (arises : Arises h w) (requests : List (Request α)) :
    Arises (h ++ w.log requests) (w.performAll requests) := by
  induction requests generalizing h w with
  | nil =>
    rw [log, List.append_nil]
    exact arises
  | cons r requests ih =>
    have run := ih (arises.perform r)
    rwa [List.append_assoc] at run

/-- A removal took the element from the worklist that there was then. -/
theorem exists_poll (arises : Arises h w) {j : Nat} (taken : h[j]? = some (.taken a)) :
    ∃ v rest, Arises (h.take j) v ∧ v.poll? = some (a, rest) := by
  have earlier : ∀ {h : List (Event α)} {e : Event α}, (h ++ [e])[j]? = some (.taken a) →
      j ≠ h.length →
      h[j]? = some (.taken a) ∧ (h ++ [e]).take j = h.take j := by
    intro h e there other
    rw [getElem?_append_singleton, if_neg other] at there
    exact ⟨there, List.take_append_of_le_length (Nat.le_of_lt (lt_length_of_getElem? there))⟩
  induction arises with
  | empty => exact nomatch taken
  | @added h w arises b ih =>
    by_cases last : j = h.length
    · rw [getElem?_append_singleton, if_pos last] at taken
      cases taken
    · obtain ⟨there, same⟩ := earlier taken last
      rw [same]
      exact ih there
  | @taken h w rest b arises polled ih =>
    by_cases last : j = h.length
    · rw [getElem?_append_singleton, if_pos last] at taken
      cases taken
      rw [last, List.take_left]
      exact ⟨w, rest, arises, polled⟩
    · obtain ⟨there, same⟩ := earlier taken last
      rw [same]
      exact ih there

end Arises

theorem arises_after (init : List α) (requests : List (Request α)) :
    Arises (history init requests) (after init requests) :=
  (Arises.empty.addAll init).performAll requests

/-! ### The queue in the order of additions -/

/-- **The queue lists what is pending, in the order in which it became so**: the places since which
its elements are pending ascend. -/
structure Tracks (h : List (Event α)) (w : WorkList α) : Prop where
  faithful : w.Faithful
  mem_queue : ∀ a, a ∈ w.queue ↔ Pending h a
  ordered : ∃ entries : List (α × Nat), w.queue = entries.map Prod.fst ∧
    entries.Pairwise (fun p q => p.2 < q.2) ∧
    ∀ a i, (a, i) ∈ entries ↔ PendingSince h a i

namespace Tracks

omit [DecidableEq α] in
theorem empty : Tracks ([] : List (Event α)) {} where
  faithful := faithful_empty
  mem_queue _ := iff_of_false List.not_mem_nil not_pending_nil
  ordered :=
    ⟨[], rfl, List.Pairwise.nil, fun _ _ => iff_of_false List.not_mem_nil not_pendingSince_nil⟩

/-- An element that is added becomes pending last, unless it is pending. -/
theorem added (tracks : Tracks h w) (a : α) : Tracks (h ++ [.added a]) (w.add a) := by
  obtain ⟨faithful, mem_queue, entries, queue, ascending, since⟩ := tracks
  refine ⟨faithful.add a, ?_, ?_⟩
  · intro b
    rw [faithful.queue_add, mem_adjoin, mem_queue, pending_append_singleton]
    constructor
    · intro cases
      rcases cases with pending | rfl
      · exact Or.inr ⟨pending, fun taken => nomatch taken⟩
      · exact Or.inl rfl
    · intro cases
      rcases cases with same | ⟨pending, -⟩
      · exact Or.inr (Event.added.inj same).symm
      · exact Or.inl pending
  · by_cases pending : Pending h a
    · refine ⟨entries, ?_, ascending, ?_⟩
      · rw [faithful.queue_add, adjoin_of_mem ((mem_queue a).mpr pending), queue]
      · intro b i
        rw [since, pendingSince_append_singleton]
        constructor
        · exact fun held => Or.inl ⟨held, fun taken => nomatch taken⟩
        · intro cases
          rcases cases with ⟨held, -⟩ | ⟨same, fresh, -⟩
          · exact held
          · exact absurd (Event.added.inj same ▸ pending) fresh
    · refine ⟨entries ++ [(a, h.length)], ?_, ?_, ?_⟩
      · rw [faithful.queue_add, adjoin_of_not_mem (mt (mem_queue a).mp pending), queue,
          List.map_append]
        rfl
      · refine List.pairwise_append.mpr ⟨ascending, List.pairwise_singleton _ _, ?_⟩
        rintro ⟨b, i⟩ held q last
        rw [List.mem_singleton.mp last]
        exact lt_length_of_getElem? ((since b i).mp held).1
      · intro b i
        rw [List.mem_append, since, pendingSince_append_singleton, List.mem_singleton,
          Prod.mk.injEq]
        constructor
        · intro cases
          rcases cases with held | ⟨rfl, rfl⟩
          · exact Or.inl ⟨held, fun taken => nomatch taken⟩
          · exact Or.inr ⟨rfl, pending, rfl⟩
        · intro cases
          rcases cases with ⟨held, -⟩ | ⟨same, -, place⟩
          · exact Or.inl held
          · exact Or.inr ⟨(Event.added.inj same).symm, place⟩

/-- The element in front is the one that has been pending longest. -/
theorem oldest (tracks : Tracks h w) (polled : w.poll? = some (a, rest)) :
    ∃ i, PendingSince h a i ∧ ∀ b k, PendingSince h b k → i ≤ k := by
  obtain ⟨faithful, -, entries, queue, ascending, since⟩ := tracks
  rw [(faithful.poll polled).1] at queue
  cases entries with
  | nil => cases queue
  | cons entry entries =>
    obtain ⟨b, i⟩ := entry
    obtain ⟨rfl, -⟩ := List.cons.inj queue
    refine ⟨i, (since a i).mp List.mem_cons_self, ?_⟩
    intro b k held
    rcases List.mem_cons.mp ((since b k).mpr held) with first | later
    · exact Nat.le_of_eq (Prod.mk.inj first).2.symm
    · exact Nat.le_of_lt ((List.pairwise_cons.mp ascending).1 _ later)

/-- Taking the element in front leaves the others as they are. -/
theorem taken (tracks : Tracks h w) (polled : w.poll? = some (a, rest)) :
    Tracks (h ++ [.taken a]) rest := by
  obtain ⟨faithful, mem_queue, entries, queue, ascending, since⟩ := tracks
  obtain ⟨front, faithful'⟩ := faithful.poll polled
  have nodup : a ∉ rest.queue := (List.nodup_cons.mp (front ▸ faithful.nodup)).1
  refine ⟨faithful', ?_, ?_⟩
  · intro b
    have held := mem_queue b
    rw [front, List.mem_cons] at held
    rw [pending_append_singleton, ← held]
    constructor
    · exact fun mem => Or.inr ⟨Or.inr mem, fun same => nodup (Event.taken.inj same ▸ mem)⟩
    · intro cases
      rcases cases with added | ⟨first | mem, other⟩
      · exact nomatch added
      · exact absurd (congrArg Event.taken first.symm) other
      · exact mem
  · rw [front] at queue
    cases entries with
    | nil => cases queue
    | cons entry entries =>
      obtain ⟨rfl, tail⟩ := List.cons.inj queue
      refine ⟨entries, tail, (List.pairwise_cons.mp ascending).2, ?_⟩
      intro b k
      rw [pendingSince_append_singleton, ← since, List.mem_cons]
      constructor
      · intro later
        refine Or.inl ⟨Or.inr later, fun same => nodup ?_⟩
        rw [Event.taken.inj same, tail]
        exact List.mem_map_of_mem later
      · intro cases
        rcases cases with ⟨first | later, other⟩ | ⟨added, -⟩
        · exact absurd (congrArg (fun p => Event.taken p.1) first.symm) other
        · exact later
        · exact nomatch added

end Tracks

/-- **A worklist keeps track of its history.** -/
theorem Arises.tracks (arises : Arises h w) : Tracks h w := by
  induction arises with
  | empty => exact Tracks.empty
  | added _ a ih => exact ih.added a
  | taken _ polled ih => exact ih.taken polled

end Arising

/-! ### Every element is taken in the end -/

section Progress

variable {α : Type} [DecidableEq α] {w : WorkList α} {a : α}

/-- Additions do not move what is there. -/
theorem Faithful.idxOf_addAll (faithful : w.Faithful) (mem : a ∈ w.queue) (as : List α) :
    (w.addAll as).queue.idxOf a = w.queue.idxOf a := by
  obtain ⟨more, queue, -⟩ := exists_adjoinAll_eq_append w.queue as
  rw [faithful.queue_addAll, queue, List.idxOf_append_of_mem mem]

/-- **An element is taken** when more elements have been asked for than there are before it. -/
theorem taken_mem_log (faithful : w.Faithful) (mem : a ∈ w.queue) (requests : List (Request α))
    (enough : w.queue.idxOf a < requests.countP Request.isPoll) : .taken a ∈ w.log requests := by
  -- additions leave the place of the element as it is, and a removal brings it one place forward or
  -- takes it
  induction requests generalizing w with
  | nil => exact absurd enough (Nat.not_lt_zero _)
  | cons r requests ih =>
    refine List.mem_append.mpr ?_
    cases r with
    | add b =>
      refine Or.inr (ih (faithful.add b) ?_ ?_)
      · rw [perform, faithful.queue_add]
        exact mem_adjoin.mpr (Or.inl mem)
      · have place : (w.add b).queue.idxOf a = w.queue.idxOf a := faithful.idxOf_addAll mem [b]
        rw [perform, place]
        simpa [Request.isPoll] using enough
    | addAll bs =>
      refine Or.inr (ih (faithful.addAll bs) ?_ ?_)
      · rw [perform, faithful.queue_addAll]
        exact mem_adjoinAll.mpr (Or.inl mem)
      · rw [perform, faithful.idxOf_addAll mem bs]
        simpa [Request.isPoll] using enough
    | poll =>
      cases polled : w.poll? with
      | none =>
        rw [poll?_eq_none.mp polled] at mem
        exact absurd mem List.not_mem_nil
      | some p =>
        obtain ⟨b, rest⟩ := p
        obtain ⟨front, faithful'⟩ := faithful.poll polled
        have next : w.perform .poll = (.ok (some b), rest) := by rw [perform, polled]
        rw [next]
        by_cases first : b = a
        · exact Or.inl (List.mem_singleton.mpr (congrArg Event.taken first.symm))
        · rw [front, List.mem_cons] at mem
          rw [front, List.idxOf_cons_ne _ first, List.countP_cons_of_pos (by rfl)] at enough
          exact Or.inr (ih faithful' (mem.resolve_left (Ne.symm first))
            (Nat.lt_of_succ_lt_succ enough))

end Progress

/-! ### Additions and the removals that answer them -/

namespace Arises

variable {α : Type} [DecidableEq α] {h : List (Event α)} {w : WorkList α} {a : α} {i j : Nat}

/-- A removal takes what has been pending. -/
theorem exists_answers (arises : Arises h w) (taken : h[j]? = some (.taken a)) :
    ∃ i, Answers h a i j := by
  obtain ⟨v, rest, before, polled⟩ := arises.exists_poll taken
  obtain ⟨i, since, -⟩ := before.tracks.oldest polled
  exact ⟨i, since, taken⟩

/-- An element that was taken has to be added before it is taken again. -/
theorem exists_added_between (arises : Arises h w) (lt : i < j) (first : h[i]? = some (.taken a))
    (second : h[j]? = some (.taken a)) : ∃ k, i < k ∧ k < j ∧ h[k]? = some (.added a) := by
  obtain ⟨k, answers⟩ := arises.exists_answers second
  have addition := getElem?_of_take answers.1.1
  refine ⟨k, ?_, answers.lt, addition⟩
  rcases Nat.lt_trichotomy k i with before | rfl | behind
  · exact absurd (by rwa [List.getElem?_take_of_lt lt]) (answers.1.2.2 i before)
  · rw [addition] at first
    cases first
  · exact behind

/-- **No addition is lost**: if the element was not pending, then it is taken when enough elements
have been asked for. -/
theorem answered_later (arises : Arises h w) {later : List (Request α)}
    (enough : w.size ≤ later.countP Request.isPoll) (added : h[i]? = some (.added a))
    (fresh : ¬ Pending (h.take i) a) : ∃ j, Answers (h ++ w.log later) a i j := by
  have before := lt_length_of_getElem? added
  have there : (h ++ w.log later)[i]? = some (.added a) := by rwa [List.getElem?_append_left before]
  have fresh' : ¬ Pending ((h ++ w.log later).take i) a := by
    rwa [List.take_append_of_le_length (Nat.le_of_lt before)]
  refine (pendingSince_or_answers there fresh').resolve_left ?_
  rintro ⟨-, -, untaken⟩
  -- otherwise the element would still be in the queue, and then it would be taken
  have pending : Pending h a := by
    refine ⟨i, added, fun j behind taken => untaken j behind ?_⟩
    rwa [List.getElem?_append_left (lt_length_of_getElem? taken)]
  have mem := (arises.tracks.mem_queue a).mpr pending
  have place : w.queue.idxOf a < w.size := List.idxOf_lt_length_of_mem mem
  have taken := taken_mem_log arises.tracks.faithful mem later (Nat.lt_of_lt_of_le place enough)
  obtain ⟨j, hj⟩ := List.mem_iff_getElem?.mp taken
  refine untaken (h.length + j) (by omega) ?_
  rwa [List.getElem?_append_right (by omega), Nat.add_sub_cancel_left]

end Arises

/-- **A worklist is first in, first out.** After any sequence of requests to the worklist of any
list:

* the queue has no repetitions, the set beside it holds its elements, and these are the elements
  that are pending;
* if the queue is not empty, then a removal gives the element that has been pending longest; it is
  not pending afterwards, and goes to the end if it is added again;
* if the queue is empty, then a removal is a fault and changes nothing;
* between two removals of an element it is added;
* every removal answers exactly one addition, and every addition of an element that was not pending
  is answered by exactly one removal as soon as there were as many more removals as the worklist has
  elements, whatever else is asked for. -/
theorem additions_answered_in_order {α : Type} [DecidableEq α] (init : List α)
    (requests : List (Request α)) :
    ((after init requests).queue.Nodup ∧
      (∀ a, a ∈ (after init requests).pending ↔ a ∈ (after init requests).queue) ∧
      (∀ a, a ∈ (after init requests).queue ↔ Pending (history init requests) a)) ∧
    ((after init requests).queue ≠ [] →
      ∃ a rest i, (after init requests).perform .poll = (.ok (some a), rest) ∧
        PendingSince (history init requests) a i ∧
        (∀ b k, PendingSince (history init requests) b k → i ≤ k) ∧
        a ∉ rest.pending ∧ (rest.add a).queue = rest.queue ++ [a]) ∧
    ((after init requests).queue = [] →
      (after init requests).perform .poll = (.error .emptyWorkList, after init requests)) ∧
    (∀ (a : α) (i j : Nat), i < j → (history init requests)[i]? = some (.taken a) →
      (history init requests)[j]? = some (.taken a) →
        ∃ k, i < k ∧ k < j ∧ (history init requests)[k]? = some (.added a)) ∧
    (∀ (a : α) (j : Nat), (history init requests)[j]? = some (.taken a) →
      ∃! i, Answers (history init requests) a i j) ∧
    (∀ later : List (Request α), (after init requests).size ≤ later.countP Request.isPoll →
      ∀ (a : α) (i : Nat), (history init requests)[i]? = some (.added a) →
        ¬ Pending ((history init requests).take i) a →
          ∃! j, Answers (history init (requests ++ later)) a i j) := by
  have arises := arises_after init requests
  have tracks := arises.tracks
  refine ⟨⟨tracks.faithful.nodup, tracks.faithful.mem_pending, tracks.mem_queue⟩, ?_,
    ?_, ?_, ?_, ?_⟩
  · intro nonempty
    obtain ⟨⟨a, rest⟩, polled⟩ := Option.ne_none_iff_exists'.mp (mt poll?_eq_none.mp nonempty)
    obtain ⟨i, since, oldest⟩ := tracks.oldest polled
    obtain ⟨front, faithful⟩ := tracks.faithful.poll polled
    have gone : a ∉ rest.queue := (List.nodup_cons.mp (front ▸ tracks.faithful.nodup)).1
    refine ⟨a, rest, i, by rw [perform, polled], since, oldest,
      mt (faithful.mem_pending a).mp gone, ?_⟩
    rw [faithful.queue_add, adjoin_of_not_mem gone]
  · intro empty
    rw [perform, poll?_eq_none.mpr empty]
  · intro a i j lt first second
    exact arises.exists_added_between lt first second
  · intro a j taken
    obtain ⟨i, answers⟩ := arises.exists_answers taken
    exact ⟨i, answers, fun k other => other.1.unique answers.1⟩
  · intro later enough a i added fresh
    rw [history_append]
    obtain ⟨j, answers⟩ := arises.answered_later enough added fresh
    exact ⟨j, answers, fun k other => other.unique answers⟩

namespace Rounds

/-- The first element is taken and comes back behind the second. -/
def requests : List (Request Nat) := [.add 5, .poll, .add 3, .addAll [5, 8]]

def later : List (Request Nat) := [.poll, .add 9, .poll, .poll]

end Rounds

/-- In a worklist of `3`, `5` and `3` again, the first `3` is taken; then `5` is next, and the `3`
that was added behind it is taken later, once. -/
theorem additions_answered_in_order_rounds :
    (after [3, 5, 3] Rounds.requests).queue = [5, 3, 8] ∧
    (after [3, 5, 3] Rounds.requests).queue.Nodup ∧
    (∃ rest i, (after [3, 5, 3] Rounds.requests).perform .poll = (.ok (some 5), rest) ∧
      PendingSince (history [3, 5, 3] Rounds.requests) 5 i ∧
      (∀ b k, PendingSince (history [3, 5, 3] Rounds.requests) b k → i ≤ k) ∧ 5 ∉ rest.pending) ∧
    (∃ k, 4 < k ∧ k < 10 ∧ (history [3, 5, 3] (Rounds.requests ++ Rounds.later))[k]? =
      some (.added 3)) ∧
    (∃! i, Answers (history [3, 5, 3] Rounds.requests) 3 i 4) ∧
    (∃! j, Answers (history [3, 5, 3] (Rounds.requests ++ Rounds.later)) 3 5 j) ∧
    (after [] [.poll, .add 3, .poll]).perform .poll =
      (.error .emptyWorkList, after [] [.poll, .add 3, .poll]) := by
  obtain ⟨⟨nodup, -, -⟩, nonempty, -, -, removals, additions⟩ :=
    additions_answered_in_order [3, 5, 3] Rounds.requests
  obtain ⟨-, -, -, between, -⟩ :=
    additions_answered_in_order [3, 5, 3] (Rounds.requests ++ Rounds.later)
  obtain ⟨-, -, empty, -⟩ := additions_answered_in_order [] [.poll, .add 3, .poll]
  have gone : ¬ Pending ((history [3, 5, 3] Rounds.requests).take 5) 3 := by
    have ⟨⟨_, _, pending⟩, _⟩ := additions_answered_in_order [3, 5, 3] [.add 5, .poll]
    exact mt (pending 3).mpr (by decide)
  refine ⟨by decide, nodup, ?_, between 3 4 10 (by decide) rfl rfl, removals 3 4 rfl,
    additions Rounds.later (by decide) 3 5 rfl gone, empty rfl⟩
  obtain ⟨a, rest, i, polled, since, oldest, again, -⟩ := nonempty (by decide)
  have first : (after [3, 5, 3] Rounds.requests).perform .poll = (.ok (some 5), ⟨[3, 8], [8, 3]⟩) :=
    rfl
  obtain ⟨same, rfl⟩ := Prod.mk.inj (polled.symm.trans first)
  cases same
  exact ⟨_, i, first, since, oldest, again⟩

end WorkList

end StaticAnalysis
