import Mathlib.Data.List.Induction
import Mathlib.Data.List.Nodup
import StaticAnalysis.Proofs.CallGraph.Folding
import StaticAnalysis.Proofs.PointsTo.Interning

/-!
# Requests to a pool

One list holds the pointers of all kinds, and an index beside it those of each variable. Only some
requests touch the list, and only some of these the index.

* `Pool.Request`, `Pool.ofRequests` — what a pool is asked for, and the pool after a sequence of
  requests.
* `Pool.Handle`, `Pool.exchanges` — an answer is the place of an item in the pool; all requests of a
  sequence with their answers.
* `item?_serve`, `item?_foldl_serve` — **items keep their places**: what one request keeps, and so
  all that follow.
* `handle?_eq_some_iff` — of a pool without repetitions, items and places determine each other.
* `Performs.requests`, `Advances.requests` — an analysis changes its pool by requests only.
* `State.Analysed` — the states that analyses leave, one after the other and with requests in
  between.

**Main statement** (`requests_interned_and_indexed`): equal answers mean equal items, at any time;
the index lists the pointers of a variable in the order of their first request; and the objects of a
variable are those that it has under all contexts.
-/

namespace StaticAnalysis

/-! ### Ordered sets and places -/

section Places

variable {α : Type} [DecidableEq α]

theorem idxOf?_of_nodup {xs : List α} (nodup : xs.Nodup) {a : α} {i : Nat} :
    xs.idxOf? a = some i ↔ xs[i]? = some a := by
  rw [List.idxOf?_eq_some_iff, List.getElem?_eq_some_iff]
  constructor
  · intro ⟨inside, found, _⟩
    exact ⟨inside, found⟩
  · intro ⟨inside, found⟩
    refine ⟨inside, found, ?_⟩
    intro j before again
    have same := nodup.getElem_inj_iff.mp (again.trans found.symm)
    omega

theorem getElem?_adjoinAll {xs : List α} {a : α} {i : Nat} (h : xs[i]? = some a) (ys : List α) :
    (adjoinAll xs ys)[i]? = some a := by
  induction ys generalizing xs with
  | nil => exact h
  | cons y ys ih =>
    apply ih
    by_cases known : y ∈ xs
    · rwa [adjoin_of_mem known]
    · obtain ⟨inside, _⟩ := List.getElem?_eq_some_iff.mp h
      rwa [adjoin_of_not_mem known, List.getElem?_append_left inside]

theorem filter_adjoin (keep : α → Bool) (xs : List α) (a : α) :
    (adjoin xs a).filter keep = if keep a then adjoin (xs.filter keep) a else xs.filter keep := by
  by_cases known : a ∈ xs
  · rw [adjoin_of_mem known]
    split
    · next kept => rw [adjoin_of_mem (List.mem_filter.mpr ⟨known, kept⟩)]
    · rfl
  · have absent : a ∉ xs.filter keep := fun h => known (List.mem_filter.mp h).1
    rw [adjoin_of_not_mem known, adjoin_of_not_mem absent, List.filter_append]
    cases kept : keep a with
    | true => simp [kept]
    | false => simp [kept]

theorem filter_distinct (keep : α → Bool) (xs : List α) :
    (distinct xs).filter keep = distinct (xs.filter keep) := by
  induction xs using List.reverseRecOn with
  | nil => rfl
  | append_singleton xs a ih =>
    rw [distinct_append_singleton, filter_adjoin, ih, List.filter_append]
    cases kept : keep a with
    | true => simp [kept, distinct_append_singleton]
    | false => simp [kept]

end Places

namespace Pool

/-! ### Requests -/

/-- What a pool holds: its fields are what identifies it. -/
inductive Item where
  | pointer (p : Pointer)
  | object (o : HeapObj)
deriving DecidableEq

/-- The place of an item. -/
inductive Handle where
  | pointer (place : Nat)
  | object (place : Nat)
deriving DecidableEq

/-- What a pool can be asked for. -/
inductive Request where
  /-- An item, which comes into the pool unless it is there. -/
  | intern (x : Item)
  /-- A pointer, if it is there. -/
  | find (p : Pointer)
deriving DecidableEq

namespace Request

def item : Request → Item
  | intern x => x
  | find p => .pointer p

/-- The pointers that come into the pool. -/
def pointers : Request → List Pointer
  | intern (.pointer p) => [p]
  | _ => []

/-- The objects that come into the pool. -/
def objects : Request → List HeapObj
  | intern (.object o) => [o]
  | _ => []

def isIntern : Request → Bool
  | intern _ => true
  | find _ => false

theorem mem_pointers {r : Request} {p : Pointer} : p ∈ r.pointers ↔ .intern (.pointer p) = r := by
  cases r with
  | intern x => cases x <;> simp [pointers]
  | find q => simp [pointers]

end Request

/-- The pool after a request. -/
def serve (pool : Pool) : Request → Pool
  | .intern (.pointer p) => pool.mention p
  | .intern (.object o) => pool.mentionObj o
  | .find _ => pool

/-- The place of an item. -/
def handle? (pool : Pool) : Item → Option Handle
  | .pointer p => (pool.pointerId? p).map .pointer
  | .object o => (pool.objId? o).map .object

/-- The item at a place. -/
def item? (pool : Pool) : Handle → Option Item
  | .pointer place => (pool.pointers[place]?).map .pointer
  | .object place => (pool.objects[place]?).map .object

/-- What a request is answered with. -/
def answer (pool : Pool) (r : Request) : Option Handle := (pool.serve r).handle? r.item

/-- The pool after a sequence of requests. -/
def ofRequests (requests : List Request) : Pool := requests.foldl serve {}

/-- Requests with their answers, each given by the pool of its time. -/
def exchanges : Pool → List Request → List (Request × Option Handle)
  | _, [] => []
  | pool, r :: requests => (r, pool.answer r) :: (pool.serve r).exchanges requests

theorem mem_exchanges {pool : Pool} {requests : List Request} {r : Request}
    {answered : Option Handle} :
    (r, answered) ∈ pool.exchanges requests ↔
      ∃ before after, requests = before ++ r :: after ∧
        (before.foldl serve pool).answer r = answered := by
  induction requests generalizing pool with
  | nil => simp [exchanges]
  | cons r' requests ih =>
    rw [exchanges, List.mem_cons, ih]
    constructor
    · rintro (first | ⟨before, after, rfl, same⟩)
      · cases first
        exact ⟨[], requests, rfl, rfl⟩
      · exact ⟨r' :: before, after, rfl, same⟩
    · intro ⟨before, after, split, same⟩
      cases before with
      | nil =>
        cases split
        exact Or.inl (by rw [← same]; rfl)
      | cons s before =>
        cases split
        exact Or.inr ⟨before, after, rfl, same⟩

/-! ### Items and places -/

theorem pointers_serve (pool : Pool) (r : Request) :
    (pool.serve r).pointers = adjoinAll pool.pointers r.pointers := by
  cases r with
  | intern x =>
    cases x with
    | pointer p => exact pool.pointers_mention p
    | object o => rfl
  | find p => rfl

theorem objects_serve (pool : Pool) (r : Request) :
    (pool.serve r).objects = adjoinAll pool.objects r.objects := by
  cases r with
  | intern x =>
    cases x with
    | pointer p => exact pool.objects_mention p
    | object o => rfl
  | find p => rfl

/-- The pointers of a pool are those that were asked for, each once. -/
theorem pointers_ofRequests (requests : List Request) :
    (ofRequests requests).pointers = distinct (requests.flatMap Request.pointers) :=
  foldl_adjoinAll pointers pointers_serve requests {}

theorem objects_ofRequests (requests : List Request) :
    (ofRequests requests).objects = distinct (requests.flatMap Request.objects) :=
  foldl_adjoinAll objects objects_serve requests {}

theorem mem_pointers_ofRequests {requests : List Request} {p : Pointer} :
    p ∈ (ofRequests requests).pointers ↔ .intern (.pointer p) ∈ requests := by
  simp only [pointers_ofRequests, mem_distinct, List.mem_flatMap, Request.mem_pointers,
    exists_eq_right']

/-- Where nothing is listed twice, an item and its place determine each other. -/
theorem handle?_eq_some_iff {requests : List Request} {x : Item} {h : Handle} :
    (ofRequests requests).handle? x = some h ↔ (ofRequests requests).item? h = some x := by
  have pointers : (ofRequests requests).pointers.Nodup := by
    rw [pointers_ofRequests]
    exact nodup_distinct _
  have objects : (ofRequests requests).objects.Nodup := by
    rw [objects_ofRequests]
    exact nodup_distinct _
  cases x <;> cases h <;>
    simp [handle?, item?, pointerId?, objId?, idxOf?_of_nodup pointers, idxOf?_of_nodup objects]

/-- A request moves no item. -/
theorem item?_serve {pool : Pool} {h : Handle} {x : Item} (found : pool.item? h = some x)
    (r : Request) : (pool.serve r).item? h = some x := by
  cases h with
  | pointer place =>
    obtain ⟨p, hp, rfl⟩ := Option.map_eq_some_iff.mp found
    rw [item?, pointers_serve, getElem?_adjoinAll hp]
    rfl
  | object place =>
    obtain ⟨o, ho, rfl⟩ := Option.map_eq_some_iff.mp found
    rw [item?, objects_serve, getElem?_adjoinAll ho]
    rfl

/-- Later requests move no item. -/
theorem item?_foldl_serve {pool : Pool} {h : Handle} {x : Item} (found : pool.item? h = some x)
    (requests : List Request) : (requests.foldl serve pool).item? h = some x := by
  induction requests generalizing pool with
  | nil => exact found
  | cons r requests ih => exact ih (item?_serve found r)

/-- What a request was answered with is the place of its item from then on. -/
theorem item?_of_exchange {requests : List Request} {r : Request} {h : Handle}
    (exchanged : (r, some h) ∈ exchanges {} requests) :
    (ofRequests requests).item? h = some r.item := by
  obtain ⟨before, after, rfl, answered⟩ := mem_exchanges.mp exchanged
  have placed : (ofRequests (before ++ [r])).item? h = some r.item := by
    rw [← handle?_eq_some_iff, ofRequests, List.foldl_concat]
    exact answered
  rw [List.append_cons, ofRequests, List.foldl_append]
  exact item?_foldl_serve placed after

/-- A request for an item that may be added is always answered. -/
theorem isSome_answer_intern (pool : Pool) (x : Item) : (pool.answer (.intern x)).isSome := by
  cases x with
  | pointer p =>
    show (((pool.mention p).pointerId? p).map Handle.pointer).isSome
    rw [Option.isSome_map, pointerId?, List.isSome_idxOf?, pointers_mention]
    exact mem_adjoin.mpr (Or.inr rfl)
  | object o =>
    show (((pool.mentionObj o).objId? o).map Handle.object).isSome
    rw [Option.isSome_map, objId?, List.isSome_idxOf?]
    exact mem_adjoin.mpr (Or.inr rfl)

/-! ### Looking without adding -/

/-- Requests that only look can be left out. -/
theorem ofRequests_filter_isIntern (requests : List Request) :
    ofRequests (requests.filter Request.isIntern) = ofRequests requests := by
  rw [ofRequests, List.foldl_filter, ofRequests]
  congr 1
  funext pool r
  cases r <;> rfl

/-- A pointer is found if it was asked for before. -/
theorem isSome_answer_find {requests : List Request} {p : Pointer} :
    ((ofRequests requests).answer (.find p)).isSome ↔ .intern (.pointer p) ∈ requests := by
  rw [← mem_pointers_ofRequests, ← List.isSome_idxOf?]
  simp [answer, handle?, serve, Request.item, pointerId?]

/-! ### The index -/

theorem indexed_ofRequests (requests : List Request) : (ofRequests requests).Indexed := by
  refine List.foldlRecOn requests serve indexed_empty ?_
  intro pool indexed r _
  cases r with
  | intern x =>
    cases x with
    | pointer p => exact indexed.mention p
    | object o => exact indexed
  | find p => exact indexed

/-- The index lists the pointers of a variable in the order in which they were first asked for. -/
theorem pointersOf_ofRequests (requests : List Request) (v : Operand) :
    (ofRequests requests).pointersOf v =
      distinct ((requests.flatMap Request.pointers).filter fun p =>
        decide (p.operand? = some v)) := by
  rw [indexed_ofRequests requests v, pointers_ofRequests, filter_distinct]

end Pool

namespace PointsTo

/-! ### Analyses and their pools -/

/-- The second state has the pool of the first after some requests. -/
def State.Requests (st st' : State) : Prop :=
  ∃ requests : List Pool.Request, st'.pool = requests.foldl Pool.serve st.pool

namespace State.Requests

variable {st st' st'' : State}

theorem same (h : st'.pool = st.pool) : st.Requests st' := ⟨[], h⟩

theorem trans (h : st.Requests st') (h' : st'.Requests st'') : st.Requests st'' := by
  obtain ⟨requests, served⟩ := h
  obtain ⟨more, later⟩ := h'
  refine ⟨requests ++ more, ?_⟩
  rw [List.foldl_append, later, served]

theorem mention (st : State) (p : Pointer) : st.Requests (st.mention p) :=
  ⟨[.intern (.pointer p)], rfl⟩

theorem mentionObj (st : State) (o : HeapObj) : st.Requests (st.mentionObj o) :=
  ⟨[.intern (.object o)], rfl⟩

theorem connect (st : State) (p q : Pointer) : st.Requests (st.connect p q) :=
  ((mention st p).trans (mention _ q)).trans (same (st.pool_connect p q))

theorem seed (st : State) (m : CtxMethod) (o : HeapObj) : st.Requests (st.seed m o) := by
  rw [State.seed]
  split
  · exact (mention st _).trans (same rfl)
  · exact same rfl

end State.Requests

theorem Connected.requests {st st' : State} {l : List (Pointer × Pointer)}
    (h : Connected st l st') : st.Requests st' := by
  induction h with
  | nil st => exact .same rfl
  | mention p _ ih => exact (State.Requests.mention _ p).trans ih
  | record e _ ih => exact (State.Requests.same rfl).trans ih
  | connect p q _ ih => exact (State.Requests.connect _ p q).trans ih

/-- A task changes the pool by requests only. -/
theorem Performs.requests {rules : Rules} {st st' : State} {t : Task} {next : List Task}
    (done : Performs rules st t st' next) : st.Requests st' := by
  cases done with
  | direct awaits connected gives => exact connected.requests
  | access connected gives => exact connected.requests
  | wire connected gives => exact connected.requests
  | alloc awaits gives =>
    exact ((State.Requests.mentionObj st _).trans (.mention _ _)).trans (.same rfl)
  | hold awaits gives => exact (State.Requests.mention st _).trans (.same rfl)
  | @callOn s o e gives => exact .seed st e.callee o
  -- the other tasks leave the pool alone
  | _ => exact .same rfl

theorem Advances.requests {rules : Rules} {c c' : Config} (step : Advances rules c c') :
    c.state.Requests c'.state := by
  cases step with
  | task done => exact done.requests.trans (.same rfl)
  | arrival pop arrives => exact .same arrives.pool
  | idle empty => exact .same rfl

/-- The states that analyses leave, whatever rules they follow and however they end, with requests
in between. -/
inductive State.Analysed : State → Prop where
  | fresh : State.Analysed {}
  | request {st : State} (h : State.Analysed st) (r : Pool.Request) :
      State.Analysed { st with pool := st.pool.serve r }
  | analyze {st : State} (h : State.Analysed st) (rules : Rules) (n : Nat) (entries : List Method) :
      State.Analysed (rules.analyze n st entries).state

namespace State.Analysed

variable {st : State}

theorem interned (h : st.Analysed) : st.Interned := by
  induction h with
  | fresh => exact .empty
  | @request st _ r ih =>
    cases r with
    | intern x =>
      cases x with
      | pointer p => exact ih.mention p
      | object o => exact ⟨ih.indexed, ih.objects, ih.targets, ih.work⟩
    | find p => exact ih
  | analyze _ rules n entries ih => exact ih.analyze rules n entries

/-- The pool of an analysis comes from requests. -/
theorem pool_eq (h : st.Analysed) : ∃ requests, st.pool = Pool.ofRequests requests := by
  have requested : State.Requests {} st := by
    induction h with
    | fresh => exact .same rfl
    | request _ r ih => exact ih.trans ⟨[r], rfl⟩
    | @analyze st _ rules n entries ih =>
      exact analyze_keeps (P := fun st' => State.Requests {} st')
        (fun hc step => hc.trans step.requests)
        (fun _ hst => hst.trans (.same rfl)) n entries ih
  exact requested

end State.Analysed

/-- **Requests are served by identity, and the index by variables misses nothing.** In any sequence
of requests:

* a request that may add is answered;
* two requests have the same answer if and only if they ask for the same item, that is, for items of
  one kind with the same fields;
* what a request was answered with stays the place of its item, whatever is asked for later;
* requests that only look have no effect on the pool, and find a pointer if and only if it was asked
  for before;
* the index lists the pointers of a variable once each, in the order in which they were first asked
  for.

Analyses use their pools through requests. So in a state that analyses leave, the objects of a
variable are those that looking it up under some context gives. -/
theorem requests_interned_and_indexed (requests : List Pool.Request) :
    (∀ x answered, (.intern x, answered) ∈ Pool.exchanges {} requests → answered.isSome) ∧
    (∀ r r' h h', (r, some h) ∈ Pool.exchanges {} requests →
      (r', some h') ∈ Pool.exchanges {} requests →
      (h = h' ↔ r.item = r'.item)) ∧
    (∀ r h later, (r, some h) ∈ Pool.exchanges {} requests →
      (Pool.ofRequests (requests ++ later)).item? h = some r.item) ∧
    (Pool.ofRequests (requests.filter Pool.Request.isIntern) = Pool.ofRequests requests ∧
      ∀ p, ((Pool.ofRequests requests).answer (.find p)).isSome ↔ .intern (.pointer p) ∈ requests) ∧
    (∀ v, ((Pool.ofRequests requests).pointersOf v).Nodup ∧
      FirstOccurrences ((requests.flatMap Pool.Request.pointers).filter fun p =>
        decide (p.operand? = some v)) ((Pool.ofRequests requests).pointersOf v)) ∧
    (∀ st : State, st.Analysed → (∃ asked, st.pool = Pool.ofRequests asked) ∧
      ∀ v a, a ∈ st.varObjects v ↔ ∃ c, ∃ o ∈ st.lookup (.var c v), o.alloc = a) := by
  refine ⟨?_, ?_, ?_, ⟨Pool.ofRequests_filter_isIntern requests, fun p => Pool.isSome_answer_find⟩,
    ?_, ?_⟩
  · intro x answered exchanged
    obtain ⟨before, after, -, rfl⟩ := Pool.mem_exchanges.mp exchanged
    exact Pool.isSome_answer_intern _ x
  · intro r r' h h' exchanged exchanged'
    have placed := Pool.item?_of_exchange exchanged
    have placed' := Pool.item?_of_exchange exchanged'
    constructor
    · intro same
      rw [same, placed'] at placed
      exact (Option.some.inj placed).symm
    · intro same
      rw [← Pool.handle?_eq_some_iff] at placed placed'
      rw [same, placed'] at placed
      exact (Option.some.inj placed).symm
  · intro r h later exchanged
    rw [Pool.ofRequests, List.foldl_append]
    exact Pool.item?_foldl_serve (Pool.item?_of_exchange exchanged) later
  · intro v
    rw [Pool.pointersOf_ofRequests]
    exact ⟨nodup_distinct _, firstOccurrences_distinct _⟩
  · intro st analysed
    refine ⟨analysed.pool_eq, ?_⟩
    intro v a
    simp only [analysed.interned.lookup_eq_objectsOf]
    exact analysed.interned.mem_varObjects

namespace Sample

/-- The variable `a` of `main` without context. -/
def unmarked : Pointer := .var [] (some (cellVar main "a"))

/-- The same variable under a context. -/
def marked : Pointer := .var [.label "mark"] (some (cellVar main "a"))

/-- Pointers of three kinds and an object; the variable is looked for before and after it is asked
for. -/
def requests : List Pool.Request :=
  [.find unmarked, .intern (.pointer (.member theCell next)), .intern (.object theCell),
    .intern (.pointer marked), .intern (.pointer (.element theCell)), .intern (.pointer unmarked),
    .find unmarked, .intern (.pointer marked)]

end Sample

/-- The variable is not found at first and then where it was put. In the sample program, the
variable `r` of `follow` is filled under two contexts. -/
theorem requests_interned_and_indexed_sample :
    (Pool.exchanges {} Sample.requests).map Prod.snd =
      [none, some (.pointer 0), some (.object 0), some (.pointer 1),
      some (.pointer 2), some (.pointer 3), some (.pointer 3), some (.pointer 1)] ∧
    (Pool.ofRequests (Sample.requests ++ [.find Sample.marked])).item? (.pointer 3) =
      some (.pointer Sample.unmarked) ∧
    ((Pool.ofRequests Sample.requests).answer (.find (.element Sample.theCell))).isSome ∧
    (Pool.ofRequests Sample.requests).pointersOf (some (Sample.cellVar Sample.main "a")) =
      [Sample.marked, Sample.unmarked] ∧
    ((Pool.ofRequests Sample.requests).pointersOf (some (Sample.cellVar Sample.main "a"))).Nodup ∧
    ∃ st, (Sample.rules (.callString 1)).analyze 60 {} [Sample.main] = .finished st ∧
      (st.pool.pointersOf (some (Sample.cellVar Sample.follow "r"))).length = 2 ∧
      ∃ c, ∃ o ∈ st.lookup (.var c (some (Sample.cellVar Sample.follow "r"))),
        o.alloc = Sample.theCell.alloc := by
  obtain ⟨-, -, kept, ⟨-, found⟩, index, states⟩ := requests_interned_and_indexed Sample.requests
  have asked : (.find Sample.unmarked, some (.pointer 3)) ∈ Pool.exchanges {} Sample.requests := by
    decide +kernel
  have analysed : ((Sample.rules (.callString 1)).analyze 60 {} [Sample.main]).state.Analysed :=
    .analyze .fresh _ _ _
  refine ⟨by decide +kernel, kept _ _ _ asked, (found _).mpr (by decide +kernel), by decide +kernel,
    (index _).1, _, rfl, by decide +kernel, ?_⟩
  exact ((states _ analysed).2 _ _).mp (by decide +kernel)

end PointsTo

end StaticAnalysis
