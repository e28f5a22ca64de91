import StaticAnalysis.PointsTo.Result
import StaticAnalysis.Proofs.PointsTo.Steps

/-!
# Pointers and their pool

All pointers that an analysis fills are in its pool, where the index finds them by their variables.
So the results that are asked for through the pool leave nothing out.

* `Pool.Indexed` — the index of a pool lists the pointers of each variable in the order of their
  mention.
* `State.Interned` — the invariant: the index is right, and pointers that have objects, get objects
  through flow edges or wait in the worklist have been mentioned. `Performs.interned` and
  `Arrives.interned` are the step lemmas, `State.Interned.analyze` is what they give for an
  analysis.

**Main statements** (`mem_varObjects`, `lookup_eq_objectsOf`): the objects of a variable are those
of its pointers under all contexts, and looking up a pointer finds all its objects.
-/

namespace StaticAnalysis

/-! ### Pools -/

namespace Pool

@[simp] theorem pointers_mention (pool : Pool) (p : Pointer) :
    (pool.mention p).pointers = adjoin pool.pointers p := by
  by_cases h : p ∈ pool.pointers
  · rw [mention, if_pos h, adjoin_of_mem h]
  · rw [mention, if_neg h, adjoin_of_not_mem h]

@[simp] theorem objects_mention (pool : Pool) (p : Pointer) :
    (pool.mention p).objects = pool.objects := by
  rw [mention]
  split <;> rfl

/-- The index of a pool lists the pointers of each variable in the order of their mention. -/
def Indexed (pool : Pool) : Prop :=
  ∀ v, pool.pointersOf v = pool.pointers.filter fun p => decide (p.operand? = some v)

theorem indexed_empty : Indexed {} := by
  intro v
  rfl

theorem Indexed.mention {pool : Pool} (h : pool.Indexed) (p : Pointer) :
    (pool.mention p).Indexed := by
  by_cases hp : p ∈ pool.pointers
  · rwa [Pool.mention, if_pos hp]
  · have index : pool.byVar.Indexes Pointer.operand? pool.pointers := h
    rw [Pool.mention, if_neg hp]
    cases hv : p.operand? with
    | none => exact index.skip hv
    | some v => exact index.push hv

theorem Indexed.mem_pointersOf {pool : Pool} (h : pool.Indexed) {v : Operand} {p : Pointer} :
    p ∈ pool.pointersOf v ↔ p ∈ pool.pointers ∧ p.operand? = some v := by
  rw [h v, List.mem_filter, decide_eq_true_eq]

end Pool

namespace PointsTo

/-- A flow edge mentions its ends. -/
theorem State.pool_connect (st : State) (p q : Pointer) :
    (st.connect p q).pool = ((st.mention p).mention q).pool := by
  rw [State.connect_eq]
  split
  · rfl
  · split <;> rfl

/-! ### The invariant -/

/-- Pointers that have or get objects are in the pool, and its index is right. -/
structure State.Interned (st : State) : Prop where
  indexed : st.pool.Indexed
  objects : ∀ p, st.objectsOf p ≠ [] → p ∈ st.pool.pointers
  targets : ∀ p, ∀ q ∈ st.successors p, q ∈ st.pool.pointers
  work : ∀ entry ∈ st.work.toList, entry.1 ∈ st.pool.pointers

namespace State.Interned

theorem mention {st : State} (h : st.Interned) (p : Pointer) : (st.mention p).Interned := by
  have keeps : ∀ q ∈ st.pool.pointers, q ∈ (st.pool.mention p).pointers := by
    intro q hq
    rw [Pool.pointers_mention]
    exact mem_adjoin.mpr (Or.inl hq)
  refine ⟨h.indexed.mention p, ?_, ?_, ?_⟩
  · intro q hq
    exact keeps q (h.objects q hq)
  · intro q r hr
    exact keeps r (h.targets q r hr)
  · intro entry hentry
    exact keeps entry.1 (h.work entry hentry)

theorem mem_mention (st : State) (p : Pointer) : p ∈ (st.mention p).pool.pointers := by
  show p ∈ (st.pool.mention p).pointers
  rw [Pool.pointers_mention]
  exact mem_adjoin.mpr (Or.inr rfl)

theorem send {st : State} {p : Pointer} (h : st.Interned) (mentioned : p ∈ st.pool.pointers)
    (objs : List HeapObj) : (st.send p objs).Interned := by
  refine ⟨h.indexed, h.objects, h.targets, ?_⟩
  intro entry hentry
  have hentry' : entry ∈ (st.work.push (p, objs)).toList := hentry
  rw [Queue.toList_push, List.mem_append, List.mem_singleton] at hentry'
  rcases hentry' with hold | rfl
  · exact h.work entry hold
  · exact mentioned

/-- A flow edge to a pointer of the pool. -/
theorem pushFlow {st : State} {q : Pointer} (h : st.Interned) (mentioned : q ∈ st.pool.pointers)
    (p : Pointer) : State.Interned { st with flow := st.flow.push p q } := by
  refine ⟨h.indexed, h.objects, ?_, h.work⟩
  intro r t ht
  have ht' : t ∈ (st.flow.push p q).getD r [] := ht
  rw [Table.getD_push] at ht'
  split at ht'
  · rcases List.mem_append.mp ht' with hold | hnew
    · exact h.targets r t hold
    · rw [List.mem_singleton] at hnew
      subst hnew
      exact mentioned
  · exact h.targets r t ht'

theorem connect {st : State} (h : st.Interned) (p q : Pointer) : (st.connect p q).Interned := by
  have both : ((st.mention p).mention q).Interned := (h.mention p).mention q
  have mentioned := mem_mention (st.mention p) q
  rw [State.connect_eq]
  split
  · exact both
  · split
    · exact both.pushFlow mentioned p
    · exact (both.pushFlow mentioned p).send mentioned _

theorem seed {st : State} (h : st.Interned) (m : CtxMethod) (o : HeapObj) :
    (st.seed m o).Interned := by
  rw [State.seed]
  split
  · exact (h.mention _).send (mem_mention st _) [o]
  · exact h

end State.Interned

theorem Connected.interned {st st' : State} {l : List (Pointer × Pointer)}
    (h : Connected st l st') : st.Interned → st'.Interned := by
  induction h with
  | nil st => exact id
  | mention p _ ih => exact fun hst => ih (hst.mention p)
  | record e _ ih => exact fun hst => ih ⟨hst.indexed, hst.objects, hst.targets, hst.work⟩
  | connect p q _ ih => exact fun hst => ih (hst.connect p q)

theorem Performs.interned {rules : Rules} {st st' : State} {t : Task} {next : List Task}
    (done : Performs rules st t st' next) (h : st.Interned) : st'.Interned := by
  cases done with
  | direct awaits connected gives => exact connected.interned h
  | access connected gives => exact connected.interned h
  | wire connected gives => exact connected.interned h
  | @alloc s target type awaits gives =>
    have object : (st.mentionObj (rules.newObj s target type)).Interned :=
      ⟨h.indexed, h.objects, h.targets, h.work⟩
    exact (object.mention _).send (State.Interned.mem_mention _ _) _
  | @hold s v awaits gives =>
    have waits := h.mention (.var s.1 v)
    exact ⟨waits.indexed, waits.objects, waits.targets, waits.work⟩
  | @callOn s o e gives => exact h.seed e.callee o
  -- the other tasks change the graph and the history only
  | root m => exact ⟨h.indexed, h.objects, h.targets, h.work⟩
  | enter hm => exact ⟨h.indexed, h.objects, h.targets, h.work⟩
  | noTarget gives => exact ⟨h.indexed, h.objects, h.targets, h.work⟩
  | link he => exact ⟨h.indexed, h.objects, h.targets, h.work⟩
  | known hm => exact h
  | callDirectly awaits gives => exact h
  | spread call perm => exact h
  | linked he => exact h
  | notified hnext => exact h
  | notify hs => exact h

theorem Arrives.interned {st : State} {p : Pointer} {objs : List HeapObj}
    {rest : Queue (Pointer × List HeapObj)} {c : Config}
    (pop : st.work.toList = (p, objs) :: rest.toList) (arrives : Arrives st p objs rest c)
    (h : st.Interned) : c.state.Interned := by
  have popped : p ∈ st.pool.pointers := h.work (p, objs) (by rw [pop]; exact List.mem_cons_self)
  refine ⟨?_, ?_, ?_, ?_⟩
  · rw [arrives.pool]
    exact h.indexed
  · intro q hq
    rw [arrives.pool]
    rw [arrives.objectsOf q] at hq
    split at hq
    · next hqp =>
      rw [hqp]
      exact popped
    · exact h.objects q hq
  · intro q r hr
    rw [arrives.pool]
    rw [arrives.successors q] at hr
    exact h.targets q r hr
  · intro entry hentry
    rw [arrives.pool]
    rcases (arrives.work entry).mp hentry with hrest | ⟨-, q, hq, rfl⟩
    · exact h.work entry (by rw [pop]; exact List.mem_cons_of_mem _ hrest)
    · exact h.targets p q hq

theorem Advances.interned {rules : Rules} {c c' : Config} (step : Advances rules c c')
    (h : c.state.Interned) : c'.state.Interned := by
  cases step with
  | task done =>
    have h' := done.interned h
    exact ⟨h'.indexed, h'.objects, h'.targets, h'.work⟩
  | arrival pop arrives =>
    have h' := arrives.interned pop h
    exact ⟨h'.indexed, h'.objects, h'.targets, h'.work⟩
  | idle empty => exact ⟨h.indexed, h.objects, h.targets, h.work⟩

theorem State.Interned.empty : State.Interned {} :=
  ⟨Pool.indexed_empty, fun _ hp => absurd rfl hp, fun _ _ hq => absurd hq List.not_mem_nil,
    fun _ hentry => absurd hentry List.not_mem_nil⟩

/-- An analysis keeps the invariant, however it ends. -/
theorem State.Interned.analyze {st : State} (h : st.Interned) (rules : Rules) (n : Nat)
    (entries : List Method) : (rules.analyze n st entries).state.Interned :=
  analyze_keeps (fun hc step => step.interned hc)
    (fun _ hst => ⟨hst.indexed, hst.objects, hst.targets, hst.work⟩) n entries h

theorem interned_of_finished {rules : Rules} {entries : List Method} {n : Nat} {st : State}
    (h : rules.analyze n {} entries = .finished st) : st.Interned := by
  have ended := State.Interned.empty.analyze rules n entries
  rwa [h] at ended

/-! ### What results are asked for -/

namespace State.Interned

variable {st : State}

/-- **The objects of a variable are those that it has under some context.** -/
theorem mem_varObjects (h : st.Interned) {v : Operand} {a : Alloc} :
    a ∈ st.varObjects v ↔ ∃ c, ∃ o ∈ st.objectsOf (.var c v), o.alloc = a := by
  rw [varObjects, mem_distinct, List.mem_flatMap]
  constructor
  · rintro ⟨p, hp, ha⟩
    obtain ⟨o, ho, rfl⟩ := List.mem_map.mp ha
    obtain ⟨-, hv⟩ := h.indexed.mem_pointersOf.mp hp
    cases p with
    | var c w =>
      obtain rfl : w = v := Option.some.inj hv
      exact ⟨c, o, ho, rfl⟩
    | static f => contradiction
    | member b f => contradiction
    | element b => contradiction
  · rintro ⟨c, o, ho, rfl⟩
    refine ⟨.var c v, h.indexed.mem_pointersOf.mpr ⟨?_, rfl⟩, List.mem_map.mpr ⟨o, ho, rfl⟩⟩
    exact h.objects _ (List.ne_nil_of_mem ho)

/-- **Looking up a pointer finds all its objects**: a pointer that is not in the pool has none. -/
theorem lookup_eq_objectsOf (h : st.Interned) (p : Pointer) : st.lookup p = st.objectsOf p := by
  rw [lookup, Pool.pointerId?]
  cases hid : st.pool.pointers.idxOf? p with
  | some i => rfl
  | none =>
    by_cases hp : st.objectsOf p = []
    · exact hp.symm
    · exact absurd (h.objects p hp) (List.idxOf?_eq_none_iff.mp hid)

end State.Interned

end PointsTo

end StaticAnalysis
