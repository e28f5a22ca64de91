import StaticAnalysis.Proofs.PointsTo.Inference

/-!
# States of the pointer analysis through their views

A state is looked at through its views: `objectsOf`, `successors`, `waitingFor`, the call graph, the
worklist and the pool. This file says what the operations of the machine do to them.

* `State.connect` — one equation for each view.
* `Connected st l st'` — from `st` to `st'` nothing happened but that the pairs of `l` were
  connected, one after the other; the rules of most statements come down to this.
* `State.Due` — an object is at a pointer or on its way there.
* `State.Grows` — nothing that a state knows is lost: the order in which the machine moves.
* `turn_eq` — what taking an entry from the worklist does.
-/

namespace StaticAnalysis.PointsTo

namespace State

variable (st : State)

/-! ### Connecting two pointers -/

theorem connect_eq (p q : Pointer) :
    st.connect p q =
      if q ∈ st.successors p then (st.mention p).mention q
      else if (st.objectsOf p).isEmpty then
        { (st.mention p).mention q with flow := st.flow.push p q }
      else
        ({ (st.mention p).mention q with flow := st.flow.push p q }).send q (st.objectsOf p) := by
  by_cases h : q ∈ st.successors p
  · have hput : ((st.mention p).mention q).putFlow p q = (false, (st.mention p).mention q) :=
      if_pos h
    rw [connect, addFlow, hput, if_pos h]
  · have hput : ((st.mention p).mention q).putFlow p q
        = (true, { (st.mention p).mention q with flow := st.flow.push p q }) := if_neg h
    rw [connect, addFlow, hput, if_neg h]
    rfl

@[simp] theorem objectsOf_connect (p q r : Pointer) :
    (st.connect p q).objectsOf r = st.objectsOf r := by
  rw [connect_eq]
  split
  · rfl
  · split <;> rfl

@[simp] theorem waitingFor_connect (p q r : Pointer) :
    (st.connect p q).waitingFor r = st.waitingFor r := by
  rw [connect_eq]
  split
  · rfl
  · split <;> rfl

@[simp] theorem graph_connect (p q : Pointer) : (st.connect p q).graph = st.graph := by
  rw [connect_eq]
  split
  · rfl
  · split <;> rfl

theorem successors_connect (p q r : Pointer) :
    (st.connect p q).successors r = if r = p then adjoin (st.successors p) q
      else st.successors r := by
  have pushed : (st.flow.push p q).getD r []
      = if r = p then st.flow.getD r [] ++ [q] else st.flow.getD r [] := st.flow.getD_push p r q
  by_cases h : q ∈ st.successors p
  · rw [connect_eq, if_pos h, adjoin_of_mem h]
    by_cases hr : r = p
    · rw [if_pos hr, hr]
      rfl
    · rw [if_neg hr]
      rfl
  · have view : (st.connect p q).successors r = (st.flow.push p q).getD r [] := by
      rw [connect_eq, if_neg h]
      split <;> rfl
    rw [view, pushed, adjoin_of_not_mem h]
    by_cases hr : r = p
    · rw [if_pos hr, if_pos hr, hr]
      rfl
    · rw [if_neg hr, if_neg hr]
      rfl

theorem work_connect (p q : Pointer) :
    (st.connect p q).work.toList = st.work.toList ++
      if q ∈ st.successors p ∨ st.objectsOf p = [] then [] else [(q, st.objectsOf p)] := by
  by_cases h : q ∈ st.successors p
  · rw [connect_eq, if_pos h, if_pos (Or.inl h), List.append_nil]
    rfl
  · by_cases he : st.objectsOf p = []
    · rw [connect_eq, if_neg h, if_pos (List.isEmpty_iff.mpr he), if_pos (Or.inr he),
        List.append_nil]
      rfl
    · have hne : ¬ (st.objectsOf p).isEmpty = true := fun hc => he (List.isEmpty_iff.mp hc)
      have hor : ¬ (q ∈ st.successors p ∨ st.objectsOf p = []) := fun hc => hc.elim h he
      rw [connect_eq, if_neg h, if_neg hne, if_neg hor]
      exact Queue.toList_push _ _

theorem mem_successors_connect {p q r t : Pointer} :
    t ∈ (st.connect p q).successors r ↔ t ∈ st.successors r ∨ (r = p ∧ t = q) := by
  rw [successors_connect]
  by_cases hr : r = p
  · rw [if_pos hr, mem_adjoin, hr]
    simp
  · rw [if_neg hr]
    simp [hr]

end State

/-! ### Connecting several pointers -/

/-- From `st` to `st'` pointers were mentioned, events were recorded, and the pairs of `l` were
connected in their order. -/
inductive Connected : State → List (Pointer × Pointer) → State → Prop where
  | nil (st : State) : Connected st [] st
  | mention {st st' : State} {l : List (Pointer × Pointer)} (p : Pointer)
      (h : Connected (st.mention p) l st') : Connected st l st'
  | record {st st' : State} {l : List (Pointer × Pointer)} (e : Event)
      (h : Connected (st.record e) l st') : Connected st l st'
  | connect {st st' : State} {l : List (Pointer × Pointer)} (p q : Pointer)
      (h : Connected (st.connect p q) l st') : Connected st ((p, q) :: l) st'

namespace Connected

variable {st st' st'' : State} {l l' : List (Pointer × Pointer)}

theorem append (h : Connected st l st') (h' : Connected st' l' st'') :
    Connected st (l ++ l') st'' := by
  induction h with
  | nil st => exact h'
  | mention p _ ih => exact .mention p (ih h')
  | record e _ ih => exact .record e (ih h')
  | connect p q _ ih => exact .connect p q (ih h')

/-- Connecting the pairs that a list gives, one for each element. -/
theorem foldl {α : Type} (pair : α → Pointer × Pointer) :
    ∀ (xs : List α) (st : State),
      Connected st (xs.map pair)
        (xs.foldl (fun st a => st.connect (pair a).1 (pair a).2) st) := by
  intro xs
  induction xs with
  | nil => intro st; exact .nil st
  | cons a xs ih =>
    intro st
    exact .connect (pair a).1 (pair a).2 (ih (st.connect (pair a).1 (pair a).2))

theorem objectsOf (h : Connected st l st') : ∀ p, st'.objectsOf p = st.objectsOf p := by
  induction h with
  | nil st => intro p; rfl
  | mention q _ ih => exact ih
  | record e _ ih => exact ih
  | connect q r _ ih =>
    intro p
    rw [ih p, State.objectsOf_connect]

theorem waitingFor (h : Connected st l st') : ∀ p, st'.waitingFor p = st.waitingFor p := by
  induction h with
  | nil st => intro p; rfl
  | mention q _ ih => exact ih
  | record e _ ih => exact ih
  | connect q r _ ih =>
    intro p
    rw [ih p, State.waitingFor_connect]

theorem graph (h : Connected st l st') : st'.graph = st.graph := by
  induction h with
  | nil st => rfl
  | mention q _ ih => exact ih
  | record e _ ih => exact ih
  | connect q r _ ih => rw [ih, State.graph_connect]

theorem mem_successors (h : Connected st l st') :
    ∀ p q, q ∈ st'.successors p ↔ q ∈ st.successors p ∨ (p, q) ∈ l := by
  induction h with
  | nil st => intro p q; simp
  | mention r _ ih => exact ih
  | record e _ ih => exact ih
  | connect r t _ ih =>
    intro p q
    rw [ih p q, State.mem_successors_connect, List.mem_cons, Prod.mk.injEq, or_assoc]

/-- What is on its way stays so, and only the objects of a connected source join it. -/
theorem mem_work (h : Connected st l st') :
    ∀ entry, entry ∈ st'.work.toList → entry ∈ st.work.toList ∨
      ∃ p, (p, entry.1) ∈ l ∧ entry.2 = st.objectsOf p := by
  induction h with
  | nil st => intro entry he; exact Or.inl he
  | mention r _ ih => exact ih
  | record e _ ih => exact ih
  | @connect st st' l r t _ ih =>
    intro entry he
    rcases ih entry he with hw | ⟨p, hp, hobjs⟩
    · rw [State.work_connect, List.mem_append] at hw
      rcases hw with hw | hw
      · exact Or.inl hw
      · split at hw
        · exact absurd hw List.not_mem_nil
        · rw [List.mem_singleton] at hw
          subst hw
          exact Or.inr ⟨r, List.mem_cons_self, rfl⟩
    · rw [State.objectsOf_connect] at hobjs
      exact Or.inr ⟨p, List.mem_cons_of_mem _ hp, hobjs⟩

theorem work_subset (h : Connected st l st') :
    ∀ entry, entry ∈ st.work.toList → entry ∈ st'.work.toList := by
  induction h with
  | nil st => intro entry he; exact he
  | mention r _ ih => exact ih
  | record e _ ih => exact ih
  | connect r t _ ih =>
    intro entry he
    apply ih
    rw [State.work_connect]
    exact List.mem_append_left _ he

/-- Along a new edge the objects of its source are sent. -/
theorem sent (h : Connected st l st') :
    ∀ p q, (p, q) ∈ l → q ∉ st.successors p → st.objectsOf p ≠ [] →
      (q, st.objectsOf p) ∈ st'.work.toList := by
  induction h with
  | nil st => intro p q hl; exact absurd hl List.not_mem_nil
  | mention r _ ih => exact ih
  | record e _ ih => exact ih
  | @connect st st' l r t rest ih =>
    intro p q hl hnew hobjs
    by_cases hpq : p = r ∧ q = t
    · obtain ⟨rfl, rfl⟩ := hpq
      apply rest.work_subset
      rw [State.work_connect, if_neg (fun hc => hc.elim hnew hobjs)]
      exact List.mem_append_right _ List.mem_cons_self
    · have htail : (p, q) ∈ l := by
        rcases List.mem_cons.mp hl with heq | htail
        · exact absurd (Prod.mk.inj heq) hpq
        · exact htail
      have hnew' : q ∉ (st.connect r t).successors p := by
        rw [State.mem_successors_connect]
        exact fun hc => hc.elim hnew hpq
      have := ih p q htail hnew' (by rw [State.objectsOf_connect]; exact hobjs)
      rwa [State.objectsOf_connect] at this

end Connected

namespace State

/-! ### Sending objects to several pointers -/

theorem work_sendAll (objs : List HeapObj) :
    ∀ (next : List Pointer) (st : State),
      (next.foldl (fun st q => st.send q objs) st).work.toList
        = st.work.toList ++ next.map fun q => (q, objs) := by
  intro next
  induction next with
  | nil => intro st; simp
  | cons q next ih =>
    intro st
    have hsend : (st.send q objs).work.toList = st.work.toList ++ [(q, objs)] :=
      Queue.toList_push _ _
    rw [List.foldl_cons, ih, hsend, List.map_cons, List.append_assoc, List.singleton_append]

/-- Sending changes nothing but the worklist. -/
theorem sendAll_eq (objs : List HeapObj) :
    ∀ (next : List Pointer) (st : State), ∃ work : Queue (Pointer × List HeapObj),
      next.foldl (fun st q => st.send q objs) st = { st with work := work } := by
  intro next
  induction next with
  | nil => intro st; exact ⟨st.work, rfl⟩
  | cons q next ih =>
    intro st
    obtain ⟨work, hwork⟩ := ih (st.send q objs)
    exact ⟨work, hwork⟩

/-! ### Taking an entry from the worklist -/

/-- The objects among `objs` that a pointer does not have yet. -/
def fresh (st : State) (p : Pointer) (objs : List HeapObj) : List HeapObj :=
  objs.filter fun o => decide (o ∉ st.objectsOf p)

theorem mem_fresh {st : State} {p : Pointer} {objs : List HeapObj} {o : HeapObj} :
    o ∈ st.fresh p objs ↔ o ∈ objs ∧ o ∉ st.objectsOf p := by
  simp [fresh]

/-- **What propagation does**: the fresh objects are added to the pointer and sent to all its
successors, and nothing else that the rules look at changes. -/
theorem propagate_eq (st : State) (order : Arrangement Pointer) (p : Pointer)
    (objs : List HeapObj) :
    ∃ (pts : Table Pointer (List HeapObj)) (work : Queue (Pointer × List HeapObj))
      (history : List Event),
      st.propagate order p objs
        = (st.fresh p objs, { st with pts := pts, work := work, history := history }) ∧
      (∀ q, pts.getD q [] = if q = p then st.objectsOf p ++ st.fresh p objs else st.objectsOf q) ∧
      work.toList = st.work.toList ++
        if st.fresh p objs = [] then []
        else (order.arrange st.clock (st.successors p)).map fun q => (q, st.fresh p objs) := by
  by_cases hobjs : objs = []
  · -- nothing arrives
    subst hobjs
    refine ⟨st.pts, st.work, st.history, rfl, ?_, (List.append_nil _).symm⟩
    intro q
    by_cases hq : q = p
    · rw [if_pos hq, hq]
      exact (List.append_nil _).symm
    · rw [if_neg hq]
      rfl
  · have hne : ¬ objs.isEmpty = true := fun hc => hobjs (List.isEmpty_iff.mp hc)
    let next := if (st.fresh p objs).isEmpty then []
      else order.arrange st.clock (st.successors p)
    have hprop : st.propagate order p objs
        = (st.fresh p objs, (next.foldl (fun st' q => State.send st' q (st.fresh p objs))
            (st.receive p objs).2).record (.arrived p objs (st.fresh p objs) next.length)) := by
      rw [State.propagate, if_neg hne]
      rfl
    obtain ⟨work, hwork⟩ := sendAll_eq (st.fresh p objs) next (st.receive p objs).2
    have hlist := work_sendAll (st.fresh p objs) next (st.receive p objs).2
    rw [hwork] at hprop hlist
    refine ⟨_, work, _, hprop, ?_, ?_⟩
    · intro q
      show ((st.pts.set p (st.objectsOf p ++ st.fresh p objs)).get? q).getD [] = _
      rw [Table.get?_set]
      by_cases hq : q = p
      · rw [if_pos hq, if_pos hq]
        rfl
      · rw [if_neg hq, if_neg hq]
        rfl
    · rw [show work.toList = _ from hlist]
      show st.work.toList ++ next.map _ = _
      by_cases hf : st.fresh p objs = []
      · rw [if_pos hf, show next = [] from if_pos (List.isEmpty_iff.mpr hf)]
        rfl
      · rw [if_neg hf, show next = order.arrange st.clock (st.successors p) from
          if_neg (fun hc => hf (List.isEmpty_iff.mp hc))]

end State

/-- What happens when `objs` arrive at `p` and `rest` remains of the worklist. -/
structure Arrives (st : State) (p : Pointer) (objs : List HeapObj)
    (rest : Queue (Pointer × List HeapObj)) (c : Config) : Prop where
  objectsOf : ∀ q, c.state.objectsOf q
    = if q = p then st.objectsOf p ++ st.fresh p objs else st.objectsOf q
  successors : ∀ q, c.state.successors q = st.successors q
  waitingFor : ∀ q, c.state.waitingFor q = st.waitingFor q
  graph : c.state.graph = st.graph
  pool : c.state.pool = st.pool
  work : ∀ entry, entry ∈ c.state.work.toList ↔ entry ∈ rest.toList ∨
    (st.fresh p objs ≠ [] ∧ ∃ q ∈ st.successors p, entry = (q, st.fresh p objs))
  unchanged : st.fresh p objs = [] → c.state.work.toList = rest.toList
  agenda : c.agenda
    = if (st.fresh p objs).isEmpty || !p.isVar then [] else [.notify p 0 (st.fresh p objs)]

theorem turn_of_pop {rules : Rules} {st : State} {p : Pointer} {objs : List HeapObj}
    {rest : Queue (Pointer × List HeapObj)} (h : st.work.pop? = some ((p, objs), rest)) :
    Arrives st p objs rest (rules.turn st) := by
  obtain ⟨pts, work, history, hprop, hpts, hwork⟩ :=
    (({ st with work := rest }).record (.turn (rest.size + 1))).propagate_eq
      rules.pointerOrder p objs
  have hturn : rules.turn st
      = ⟨{ st with pts := pts, work := work, history := history },
          if (st.fresh p objs).isEmpty || !p.isVar then []
          else [.notify p 0 (st.fresh p objs)]⟩ := by
    rw [Rules.turn, h]
    show Config.mk (State.propagate _ _ _ _).2 (if (State.propagate _ _ _ _).1.isEmpty || _ then _
      else [.notify p 0 (State.propagate _ _ _ _).1]) = _
    rw [hprop]
    rfl
  have hwork' : work.toList = rest.toList ++
      if st.fresh p objs = [] then []
      else (rules.pointerOrder.arrange st.clock (st.successors p)).map
        fun q => (q, st.fresh p objs) := hwork
  rw [hturn]
  refine ⟨hpts, fun q => rfl, fun q => rfl, rfl, rfl, ?_, ?_, rfl⟩
  · intro entry
    rw [show entry ∈ work.toList ↔ _ from by rw [hwork', List.mem_append]]
    by_cases hf : st.fresh p objs = []
    · simp [hf]
    · have hmem : ∀ q, q ∈ rules.pointerOrder.arrange st.clock (st.successors p)
          ↔ q ∈ st.successors p := fun q => (rules.pointerOrder.perm _ _).mem_iff
      simp [hf, hmem, eq_comm]
  · intro hf
    show work.toList = rest.toList
    rw [hwork', if_pos hf, List.append_nil]

theorem turn_of_empty {rules : Rules} {st : State} (h : st.work.toList = []) :
    rules.turn st = ⟨st, []⟩ := by
  rw [Rules.turn, Queue.pop?_eq_none_iff.mpr h]

namespace State

/-! ### Growth -/

/-- An object is at a pointer or on its way there. -/
def Due (st : State) (p : Pointer) (o : HeapObj) : Prop :=
  o ∈ st.objectsOf p ∨ ∃ objs, (p, objs) ∈ st.work.toList ∧ o ∈ objs

/-- The facts that a state has recorded, where an object on its way counts as arrived. -/
def Settles (st : State) : Fact → Prop
  | .pointsTo p o => st.Due p o
  | f => st.Holds f

/-- Everything that `st` knows is still known in `st'`, and statements keep their places among those
that wait. -/
structure Grows (st st' : State) : Prop where
  objectsOf : ∀ p o, o ∈ st.objectsOf p → o ∈ st'.objectsOf p
  due : ∀ p o, st.Due p o → st'.Due p o
  successors : ∀ p q, q ∈ st.successors p → q ∈ st'.successors p
  reachable : ∀ m, m ∈ st.graph.reachable → m ∈ st'.graph.reachable
  edges : ∀ e, e ∈ st.graph.edges → e ∈ st'.graph.edges
  waitingFor : ∀ p, st.waitingFor p <+: st'.waitingFor p

theorem Grows.refl (st : State) : Grows st st where
  objectsOf _ _ h := h
  due _ _ h := h
  successors _ _ h := h
  reachable _ h := h
  edges _ h := h
  waitingFor _ := List.prefix_refl _

theorem Grows.trans {st st' st'' : State} (h : Grows st st') (h' : Grows st' st'') :
    Grows st st'' where
  objectsOf p o ho := h'.objectsOf p o (h.objectsOf p o ho)
  due p o ho := h'.due p o (h.due p o ho)
  successors p q hq := h'.successors p q (h.successors p q hq)
  reachable m hm := h'.reachable m (h.reachable m hm)
  edges e he := h'.edges e (h.edges e he)
  waitingFor p := (h.waitingFor p).trans (h'.waitingFor p)

/-- What is on its way stays due when the worklist only gets longer. -/
theorem Due.of_work {st st' : State} {p : Pointer} {o : HeapObj} (h : st.Due p o)
    (hobjs : ∀ o, o ∈ st.objectsOf p → o ∈ st'.objectsOf p)
    (hwork : ∀ entry, entry ∈ st.work.toList → entry ∈ st'.work.toList) : st'.Due p o := by
  rcases h with h | ⟨objs, hmem, ho⟩
  · exact Or.inl (hobjs o h)
  · exact Or.inr ⟨objs, hwork _ hmem, ho⟩

theorem Grows.holds {st st' : State} (h : Grows st st') :
    ∀ {f : Fact}, st.Holds f → st'.Holds f := by
  intro f hf
  cases f with
  | reached m => exact h.reachable m hf
  | called e => exact h.edges e hf
  | flows p q => exact h.successors p q hf
  | pointsTo p o => exact h.objectsOf p o hf

theorem Grows.settles {st st' : State} (h : Grows st st') :
    ∀ {f : Fact}, st.Settles f → st'.Settles f := by
  intro f hf
  cases f with
  | reached m => exact h.reachable m hf
  | called e => exact h.edges e hf
  | flows p q => exact h.successors p q hf
  | pointsTo p o => exact h.due p o hf

theorem Grows.mem_waitingFor {st st' : State} (h : Grows st st') {p : Pointer} {s : CtxStmt}
    (hs : s ∈ st.waitingFor p) : s ∈ st'.waitingFor p :=
  (h.waitingFor p).subset hs

end State

theorem Connected.grows {st st' : State} {l : List (Pointer × Pointer)} (h : Connected st l st') :
    State.Grows st st' where
  objectsOf p o ho := by rwa [h.objectsOf p]
  due p o ho := ho.of_work (fun o ho => by rwa [h.objectsOf p]) h.work_subset
  successors p q hq := (h.mem_successors p q).mpr (Or.inl hq)
  reachable m hm := by rwa [h.graph]
  edges e he := by rwa [h.graph]
  waitingFor p := by simp only [h.waitingFor p, List.prefix_refl]

theorem Arrives.grows {st : State} {p : Pointer} {objs : List HeapObj}
    {rest : Queue (Pointer × List HeapObj)} {c : Config} (h : Arrives st p objs rest c)
    (hpop : st.work.toList = (p, objs) :: rest.toList) : State.Grows st c.state := by
  have kept : ∀ q o, o ∈ st.objectsOf q → o ∈ c.state.objectsOf q := by
    intro q o ho
    rw [h.objectsOf q]
    by_cases hq : q = p
    · subst hq
      rw [if_pos rfl]
      exact List.mem_append_left _ ho
    · rwa [if_neg hq]
  refine ⟨kept, ?_, ?_, ?_, ?_, ?_⟩
  · rintro q o (ho | ⟨objs', hmem, ho⟩)
    · exact Or.inl (kept q o ho)
    · rw [hpop, List.mem_cons] at hmem
      rcases hmem with heq | hmem
      · -- the entry that was taken: its objects are now at the pointer
        obtain ⟨rfl, rfl⟩ := Prod.mk.inj heq
        refine Or.inl ?_
        rw [h.objectsOf q, if_pos rfl, List.mem_append, State.mem_fresh]
        by_cases hk : o ∈ st.objectsOf q
        · exact Or.inl hk
        · exact Or.inr ⟨ho, hk⟩
      · exact Or.inr ⟨objs', (h.work _).mpr (Or.inl hmem), ho⟩
  · intro q r hr
    rwa [h.successors q]
  · intro m hm
    rwa [h.graph]
  · intro e he
    rwa [h.graph]
  · intro q
    simp only [h.waitingFor q, List.prefix_refl]

/-! ### What is new -/

/-- Sending settles that the objects are at the pointer, and nothing else. -/
theorem State.settles_send {st : State} {p : Pointer} {objs : List HeapObj} {f : Fact}
    (h : (st.send p objs).Settles f) : st.Settles f ∨ ∃ o ∈ objs, f = .pointsTo p o := by
  cases f with
  | reached m => exact Or.inl h
  | called e => exact Or.inl h
  | flows q r => exact Or.inl h
  | pointsTo q o =>
    rcases h with ho | ⟨objs', hmem, ho⟩
    · exact Or.inl (Or.inl ho)
    · have hlist : (st.send p objs).work.toList = st.work.toList ++ [(p, objs)] :=
        Queue.toList_push _ _
      rw [hlist, List.mem_append, List.mem_singleton] at hmem
      rcases hmem with hmem | heq
      · exact Or.inl (Or.inr ⟨objs', hmem, ho⟩)
      · obtain ⟨rfl, rfl⟩ := Prod.mk.inj heq
        exact Or.inr ⟨o, ho, rfl⟩

/-- Connecting pairs settles these flow edges, and that the objects of the sources are at the
targets. -/
theorem Connected.settles {st st' : State} {l : List (Pointer × Pointer)} (h : Connected st l st') :
    ∀ {f : Fact}, st'.Settles f → st.Settles f ∨ (∃ p q, f = .flows p q ∧ (p, q) ∈ l) ∨
      ∃ p q o, f = .pointsTo q o ∧ (p, q) ∈ l ∧ o ∈ st.objectsOf p := by
  intro f hf
  cases f with
  | reached m =>
    refine Or.inl ?_
    show m ∈ st.graph.reachable
    rw [← h.graph]
    exact hf
  | called e =>
    refine Or.inl ?_
    show e ∈ st.graph.edges
    rw [← h.graph]
    exact hf
  | flows p q =>
    rcases (h.mem_successors p q).mp hf with hold | hl
    · exact Or.inl hold
    · exact Or.inr (Or.inl ⟨p, q, rfl, hl⟩)
  | pointsTo q o =>
    rcases hf with ho | ⟨objs, hmem, ho⟩
    · rw [h.objectsOf q] at ho
      exact Or.inl (Or.inl ho)
    · rcases h.mem_work _ hmem with hmem | ⟨p, hl, hobjs⟩
      · exact Or.inl (Or.inr ⟨objs, hmem, ho⟩)
      · obtain rfl : objs = st.objectsOf p := hobjs
        exact Or.inr (Or.inr ⟨p, q, o, rfl, hl, ho⟩)

/-- An arrival settles that the fresh objects are at the successors of the pointer. -/
theorem Arrives.settles {st : State} {p : Pointer} {objs : List HeapObj}
    {rest : Queue (Pointer × List HeapObj)} {c : Config} (h : Arrives st p objs rest c)
    (hpop : st.work.toList = (p, objs) :: rest.toList) :
    ∀ {f : Fact}, c.state.Settles f → st.Settles f ∨
      ∃ q o, f = .pointsTo q o ∧ q ∈ st.successors p ∧ st.Due p o := by
  -- a fresh object was on its way to the pointer
  have due : ∀ o, o ∈ st.fresh p objs → st.Due p o := by
    intro o ho
    refine Or.inr ⟨objs, ?_, (State.mem_fresh.mp ho).1⟩
    rw [hpop]
    exact List.mem_cons_self
  intro f hf
  cases f with
  | reached m =>
    refine Or.inl ?_
    show m ∈ st.graph.reachable
    rw [← h.graph]
    exact hf
  | called e =>
    refine Or.inl ?_
    show e ∈ st.graph.edges
    rw [← h.graph]
    exact hf
  | flows q r =>
    refine Or.inl ?_
    show r ∈ st.successors q
    rw [← h.successors q]
    exact hf
  | pointsTo q o =>
    rcases hf with ho | ⟨objs', hmem, ho⟩
    · rw [h.objectsOf q] at ho
      by_cases hq : q = p
      · subst hq
        rw [if_pos rfl, List.mem_append] at ho
        rcases ho with ho | ho
        · exact Or.inl (Or.inl ho)
        · exact Or.inl (due o ho)
      · rw [if_neg hq] at ho
        exact Or.inl (Or.inl ho)
    · rcases (h.work _).mp hmem with hmem | ⟨-, r, hr, heq⟩
      · refine Or.inl (Or.inr ⟨objs', ?_, ho⟩)
        rw [hpop]
        exact List.mem_cons_of_mem _ hmem
      · obtain ⟨rfl, rfl⟩ := Prod.mk.inj heq
        exact Or.inr ⟨q, o, rfl, hr, due o ho⟩

end StaticAnalysis.PointsTo
