import StaticAnalysis.Proofs.PointsTo.Steps

/-!
# Soundness of the pointer analysis

When the machine comes to rest, no inference rule has been left out, whatever the order in which
objects, edges and waiting statements came together.

* `Task.Carries` — the facts that a task on the agenda will see to; `Promised` — a fact is settled
  or carried by a task.
* `Discharges` — **the contract of a task**: nothing is lost, what the task carried is settled or
  carried by the tasks that it leaves, and whatever it makes new is followed up.
* `Pursued` — the invariant: every fact that the rules ask for is promised.

**Main statement** (`analysis_sound`): the facts of a finished analysis are closed under all
inference rules.
-/

namespace StaticAnalysis.PointsTo

variable (rules : Rules)

/-- The facts that a task will see to. A notification carries those of all statements that it has
not reached yet. -/
def Task.Carries (st : State) : Task → Fact → Prop
  | .root m, f => f = .reached ([], m)
  | .enter m, f => f = .reached m
  | .exec s, f => rules.Gives s f
  | .resume s objs, f => ∃ o ∈ objs, rules.GivesOn s o f
  | .invoke s o, f => rules.GivesOn s o f
  | .link e, f => f = .called e
  | .wire e, f => rules.Wires e f
  | .notify p next objs, f =>
    ∃ s ∈ (st.waitingFor p).drop next, ∃ o ∈ objs, rules.GivesOn s o f

/-- A fact is settled, or a task on the agenda will see to it. -/
def Promised (c : Config) (f : Fact) : Prop :=
  c.state.Settles f ∨ ∃ t ∈ c.agenda, t.Carries rules c.state f

/-- The contract of a task: from `st` to `st'` the task `t` was done, and `next` is left to do. -/
structure Discharges (st : State) (t : Task) (st' : State) (next : List Task) : Prop where
  grows : State.Grows st st'
  objectsOf : ∀ p, st'.objectsOf p = st.objectsOf p
  /-- What the task carried is settled or carried on. -/
  carried : ∀ f, t.Carries rules st f → st'.Settles f ∨ ∃ t' ∈ next, t'.Carries rules st' f
  /-- The statements of a newly reachable method are to be executed. -/
  reachable : ∀ m ∈ st'.graph.reachable, m ∈ st.graph.reachable ∨
    ∀ s ∈ (rules.code.body m.2).stmts, .exec (m.1, s) ∈ next
  /-- A statement that was executed waits, if it has to. -/
  awaits : ∀ s v, t = .exec s → s.2.awaited? = some v → s ∈ st'.waitingFor (.var s.1 v)
  /-- A statement that begins to wait is to be applied to the objects that are there. -/
  waiting : ∀ p s, s ∈ st'.waitingFor p → s ∈ st.waitingFor p ∨
    (p.isVar = true ∧ ∀ o ∈ st.objectsOf p, ∃ objs, o ∈ objs ∧ .resume s objs ∈ next)
  /-- A new call edge is to be followed and wired. -/
  edges : ∀ e ∈ st'.graph.edges, e ∈ st.graph.edges ∨ (.enter e.callee ∈ next ∧ .wire e ∈ next)
  /-- Along a new flow edge the objects of its source are on their way. -/
  flows : ∀ p q, q ∈ st'.successors p → q ∈ st.successors p ∨
    ∀ o ∈ st.objectsOf p, st'.Due q o

variable {rules}

theorem Task.Carries.mono {st st' : State} (h : State.Grows st st') :
    ∀ {t : Task} {f : Fact}, t.Carries rules st f → t.Carries rules st' f := by
  intro t f hf
  cases t with
  | notify p next objs =>
    obtain ⟨s, hs, o, ho, hgives⟩ := hf
    obtain ⟨later, hlater⟩ := h.waitingFor p
    refine ⟨s, ?_, o, ho, hgives⟩
    rw [← hlater, List.drop_append]
    exact List.mem_append_left _ hs
  | root m => exact hf
  | enter m => exact hf
  | exec s => exact hf
  | resume s objs => exact hf
  | invoke s o => exact hf
  | link e => exact hf
  | wire e => exact hf

/-! ### Every task keeps its contract -/

namespace Discharges

variable {st st' : State} {t : Task} {next : List Task}

/-- A task that changes neither the call graph nor the flow edges nor what waits, and only adds to
the worklist. -/
theorem of_work (objectsOf : ∀ p, st'.objectsOf p = st.objectsOf p)
    (successors : ∀ p, st'.successors p = st.successors p)
    (waitingFor : ∀ p, st'.waitingFor p = st.waitingFor p)
    (reachable : st'.graph.reachable = st.graph.reachable)
    (edges : st'.graph.edges = st.graph.edges)
    (work : ∀ entry, entry ∈ st.work.toList → entry ∈ st'.work.toList)
    (carried : ∀ f, t.Carries rules st f → st'.Settles f ∨ ∃ t' ∈ next, t'.Carries rules st' f)
    (awaits : ∀ s v, t = .exec s → s.2.awaited? ≠ some v) :
    Discharges rules st t st' next where
  grows :=
    { objectsOf := fun p o ho => by rwa [objectsOf p]
      due := fun p o ho => ho.of_work (fun o ho => by rwa [objectsOf p]) work
      successors := fun p q hq => by rwa [successors p]
      reachable := fun m hm => by rwa [reachable]
      edges := fun e he => by rwa [edges]
      waitingFor := fun p => by simp only [waitingFor p, List.prefix_refl] }
  objectsOf := objectsOf
  carried := carried
  reachable m hm := Or.inl (by rwa [reachable] at hm)
  awaits s v ht hv := absurd hv (awaits s v ht)
  waiting p s hs := Or.inl (by rwa [waitingFor p] at hs)
  edges e he := Or.inl (by rwa [edges] at he)
  flows p q hq := Or.inl (by rwa [successors p] at hq)

/-- A task that leaves the state as it is. -/
theorem of_same
    (carried : ∀ f, t.Carries rules st f → st.Settles f ∨ ∃ t' ∈ next, t'.Carries rules st f)
    (awaits : ∀ s v, t = .exec s → s.2.awaited? ≠ some v) : Discharges rules st t st next :=
  of_work (fun _ => rfl) (fun _ => rfl) (fun _ => rfl) rfl rfl (fun _ he => he) carried awaits

/-- A task that connects pointers: it carried these flow edges and nothing else. -/
theorem of_connected {l : List (Pointer × Pointer)} (connected : Connected st l st')
    (carried : ∀ f, t.Carries rules st f → ∃ p q, f = .flows p q ∧ (p, q) ∈ l)
    (awaits : ∀ s v, t = .exec s → s.2.awaited? ≠ some v) : Discharges rules st t st' [] where
  grows := connected.grows
  objectsOf := connected.objectsOf
  carried f hf := by
    obtain ⟨p, q, rfl, hl⟩ := carried f hf
    exact Or.inl ((connected.mem_successors p q).mpr (Or.inr hl))
  reachable m hm := Or.inl (by rwa [connected.graph] at hm)
  awaits s v ht hv := absurd hv (awaits s v ht)
  waiting p s hs := Or.inl (by rwa [connected.waitingFor p] at hs)
  edges e he := Or.inl (by rwa [connected.graph] at he)
  flows p q hq := by
    by_cases hold : q ∈ st.successors p
    · exact Or.inl hold
    · have hl : (p, q) ∈ l := ((connected.mem_successors p q).mp hq).resolve_left hold
      refine Or.inr ?_
      intro o ho
      have hne : st.objectsOf p ≠ [] := List.ne_nil_of_mem ho
      exact Or.inr ⟨st.objectsOf p, connected.sent p q hl hold hne, ho⟩

/-- A new method: its statements are to be executed. -/
theorem of_enter {m : CtxMethod} :
    Discharges rules st (.enter m) (st.reach m)
      ((rules.code.body m.2).stmts.map fun s => .exec (m.1, s)) where
  grows :=
    { State.Grows.refl st with
      reachable := fun m' hm' => List.mem_append_left _ hm' }
  objectsOf _ := rfl
  carried f hf := by
    obtain rfl : f = .reached m := hf
    exact Or.inl (List.mem_append_right _ List.mem_cons_self)
  reachable m' hm' := by
    rcases List.mem_append.mp hm' with hold | hnew
    · exact Or.inl hold
    · rw [List.mem_singleton] at hnew
      subst hnew
      exact Or.inr fun s hs => List.mem_map.mpr ⟨s, hs, rfl⟩
  awaits s v ht := by cases ht
  waiting p s hs := Or.inl hs
  edges e he := Or.inl he
  flows p q hq := Or.inl hq

/-- A statement that begins to wait. -/
theorem of_hold {s : CtxStmt} {v : Operand} (awaits : s.2.awaited? = some v)
    (gives : ∀ f, ¬ rules.Gives s f) :
    Discharges rules st (.exec s) (hold st s v).1 (hold st s v).2 := by
  have grown : State.Grows st (hold st s v).1 :=
    { State.Grows.refl st with
      waitingFor := by
        intro p
        rw [waitingFor_hold]
        split
        · exact List.prefix_append _ _
        · exact List.prefix_refl _ }
  refine ⟨grown, fun p => rfl, ?_, fun m hm => Or.inl hm, ?_, ?_, fun e he => Or.inl he,
    fun p q hq => Or.inl hq⟩
  · intro f hf
    exact absurd hf (gives f)
  · intro s' v' hs' hv'
    cases hs'
    obtain rfl : v = v' := Option.some.inj (awaits.symm.trans hv')
    rw [waitingFor_hold, if_pos rfl]
    exact List.mem_append_right _ List.mem_cons_self
  · intro p s' hs'
    rw [waitingFor_hold] at hs'
    by_cases hp : p = .var s.1 v
    · rw [if_pos hp, List.mem_append, List.mem_singleton] at hs'
      rcases hs' with hold | rfl
      · exact Or.inl hold
      · refine Or.inr ⟨by rw [hp]; rfl, ?_⟩
        intro o ho
        rw [hp] at ho
        have hne : ¬ (st.objectsOf (.var s'.1 v)).isEmpty = true := by
          rw [List.isEmpty_iff]
          exact List.ne_nil_of_mem ho
        refine ⟨_, ho, ?_⟩
        rw [tasks_hold, if_neg hne]
        exact List.mem_cons_self
    · rw [if_neg hp] at hs'
      exact Or.inl hs'

/-- A call edge that is added: it is to be followed and wired. -/
theorem of_link {e : CtxEdge} :
    Discharges rules st (.link e) { st with graph := (st.graph.addEdge e).2 }
      [.enter e.callee, .wire e] := by
  have edges : ∀ e', e' ∈ (st.graph.addEdge e).2.edges ↔ e' ∈ st.graph.edges ∨ e' = e := by
    intro e'
    rw [CallGraph.edges_addEdge, mem_adjoin]
  have reachable := st.graph.reachable_addEdge e
  refine ⟨?_, fun p => rfl, ?_, ?_, ?_, fun p s hs => Or.inl hs, ?_, fun p q hq => Or.inl hq⟩
  · refine { State.Grows.refl st with reachable := ?_, edges := ?_ }
    · intro m hm
      show m ∈ (st.graph.addEdge e).2.reachable
      rwa [reachable]
    · intro e' he'
      exact (edges e').mpr (Or.inl he')
  · intro f hf
    obtain rfl : f = .called e := hf
    exact Or.inl ((edges e).mpr (Or.inr rfl))
  · intro m hm
    refine Or.inl ?_
    rwa [← reachable]
  · intro s v ht
    cases ht
  · intro e' he'
    rcases (edges e').mp he' with hold | rfl
    · exact Or.inl hold
    · exact Or.inr ⟨List.mem_cons_self, List.mem_cons_of_mem _ List.mem_cons_self⟩

/-- Mentioning a pointer or an object first makes no difference. -/
theorem of_pool {pool : Pool} (h : Discharges rules { st with pool := pool } t st' next) :
    Discharges rules st t st' next where
  grows := ⟨h.grows.objectsOf, h.grows.due, h.grows.successors, h.grows.reachable, h.grows.edges,
    h.grows.waitingFor⟩
  objectsOf := h.objectsOf
  carried f hf := h.carried f (by cases t <;> exact hf)
  reachable := h.reachable
  awaits := h.awaits
  waiting := h.waiting
  edges := h.edges
  flows := h.flows

/-- Sending an object to a pointer, when that is all the task carried apart from `next`. -/
theorem of_send {p : Pointer} {o : HeapObj}
    (carried : ∀ f, t.Carries rules st f → f = .pointsTo p o ∨
      ∃ t' ∈ next, t'.Carries rules (st.send p [o]) f)
    (awaits : ∀ s v, t = .exec s → s.2.awaited? ≠ some v) :
    Discharges rules st t (st.send p [o]) next := by
  have list : (st.send p [o]).work.toList = st.work.toList ++ [(p, [o])] := Queue.toList_push _ _
  refine of_work (fun _ => rfl) (fun _ => rfl) (fun _ => rfl) rfl rfl ?_ ?_ awaits
  · intro entry he
    rw [list]
    exact List.mem_append_left _ he
  · intro f hf
    rcases carried f hf with rfl | hnext
    · refine Or.inl (Or.inr ⟨[o], ?_, List.mem_cons_self⟩)
      rw [list]
      exact List.mem_append_right _ List.mem_cons_self
    · exact Or.inr hnext

end Discharges

/-- **Every task keeps its contract.** -/
theorem Performs.discharges {st st' : State} {t : Task} {next : List Task}
    (done : Performs rules st t st' next) : Discharges rules st t st' next := by
  -- only executing a statement can make it wait
  have unlike : ∀ {t : Task}, (∀ s, t ≠ .exec s) → ∀ s v, t = .exec s → s.2.awaited? ≠ some v :=
    fun h s _ hs => absurd hs (h s)
  have ready : ∀ {s : CtxStmt}, s.2.awaited? = none →
      ∀ s' v, Task.exec s = .exec s' → s'.2.awaited? ≠ some v := by
    intro s hs s' v heq
    cases heq
    rw [hs]
    exact fun hc => nomatch hc
  cases done with
  | root m =>
    refine .of_work (fun _ => rfl) (fun _ => rfl) (fun _ => rfl) rfl rfl (fun _ he => he) ?_
      (unlike (by simp))
    intro f hf
    exact Or.inr ⟨_, List.mem_cons_self, hf⟩
  | known hm =>
    refine .of_same ?_ (unlike (by simp))
    intro f hf
    obtain rfl : f = .reached _ := hf
    exact Or.inl hm
  | enter hm => exact .of_enter
  | alloc awaits gives =>
    refine .of_pool (.of_send ?_ (ready awaits))
    intro f hf
    exact Or.inl ((gives f).mp hf)
  | direct awaits connected gives =>
    exact .of_connected connected (fun f hf => (gives f).mp hf) (ready awaits)
  | hold awaits gives => exact .of_hold awaits gives
  | callDirectly awaits gives =>
    refine .of_same ?_ (ready awaits)
    intro f hf
    exact Or.inr ⟨_, List.mem_cons_self, (gives f).mp hf⟩
  | access connected gives =>
    exact .of_connected connected (fun f hf => (gives f).mp hf) (unlike (by simp))
  | @spread s objs ordered call perm =>
    refine .of_same ?_ (unlike (by simp))
    rintro f ⟨o, ho, hgives⟩
    exact Or.inr ⟨.invoke s o, List.mem_map.mpr ⟨o, perm.mem_iff.mpr ho, rfl⟩, hgives⟩
  | noTarget gives =>
    refine .of_work (fun _ => rfl) (fun _ => rfl) (fun _ => rfl) rfl rfl (fun _ he => he) ?_
      (unlike (by simp))
    intro f hf
    exact absurd hf (gives f)
  | @callOn s o e gives =>
    rw [State.seed]
    split
    · next v this =>
      refine .of_pool (.of_send ?_ (unlike (by simp)))
      intro f hf
      rcases (gives f).mp hf with hcall | ⟨v', this', rfl⟩
      · exact Or.inr ⟨_, List.mem_cons_self, hcall⟩
      · obtain rfl : v = v' := Option.some.inj (this.symm.trans this')
        exact Or.inl rfl
    · next this =>
      refine .of_same ?_ (unlike (by simp))
      intro f hf
      rcases (gives f).mp hf with hcall | ⟨v', this', rfl⟩
      · exact Or.inr ⟨_, List.mem_cons_self, hcall⟩
      · exact absurd (this.symm.trans this') (by simp)
  | linked he =>
    refine .of_same ?_ (unlike (by simp))
    intro f hf
    obtain rfl : f = .called _ := hf
    exact Or.inl he
  | link he => exact .of_link
  | wire connected gives =>
    exact .of_connected connected (fun f hf => (gives f).mp hf) (unlike (by simp))
  | notified hnext =>
    refine .of_same ?_ (unlike (by simp))
    rintro f ⟨s, hs, -⟩
    rw [List.drop_eq_nil_of_le hnext] at hs
    exact absurd hs List.not_mem_nil
  | @notify p next objs s hs =>
    refine .of_same ?_ (unlike (by simp))
    rintro f ⟨s', hs', o, ho, hgives⟩
    obtain ⟨hlt, hget⟩ := List.getElem?_eq_some_iff.mp hs
    rw [List.drop_eq_getElem_cons hlt, hget] at hs'
    rcases List.mem_cons.mp hs' with rfl | hlater
    · exact Or.inr ⟨.resume s' objs, List.mem_cons_self, o, ho, hgives⟩
    · exact Or.inr ⟨.notify p (next + 1) objs, List.mem_cons_of_mem _ List.mem_cons_self,
        s', hlater, o, ho, hgives⟩

/-! ### The invariant -/

/-- Every fact that the rules ask for is settled or will be seen to. -/
structure Pursued (rules : Rules) (entries : List Method) (c : Config) : Prop where
  entry : ∀ m ∈ entries, Promised rules c (.reached ([], m))
  stmt : ∀ m ∈ c.state.graph.reachable, ∀ s ∈ (rules.code.body m.2).stmts, ∀ f,
    rules.Gives (m.1, s) f → Promised rules c f
  awaits : ∀ m ∈ c.state.graph.reachable, ∀ s ∈ (rules.code.body m.2).stmts, ∀ v,
    s.awaited? = some v →
      (m.1, s) ∈ c.state.waitingFor (.var m.1 v) ∨ .exec (m.1, s) ∈ c.agenda
  applied : ∀ p s, s ∈ c.state.waitingFor p → ∀ o ∈ c.state.objectsOf p, ∀ f,
    rules.GivesOn s o f → Promised rules c f
  callee : ∀ e ∈ c.state.graph.edges, Promised rules c (.reached e.callee)
  wired : ∀ e ∈ c.state.graph.edges, ∀ f, rules.Wires e f → Promised rules c f
  flow : ∀ p q, q ∈ c.state.successors p → ∀ o ∈ c.state.objectsOf p, c.state.Due q o
  /-- Statements wait for variables only. -/
  vars : ∀ p s, s ∈ c.state.waitingFor p → p.isVar = true

variable {entries : List Method}

/-- What was promised before a task is promised after it. -/
theorem Promised.perform {st st' : State} {t : Task} {rest next : List Task} {f : Fact}
    (done : Discharges rules st t st' next) (h : Promised rules ⟨st, t :: rest⟩ f) :
    Promised rules ⟨st', next ++ rest⟩ f := by
  rcases h with hset | ⟨t', ht', hcarries⟩
  · exact Or.inl (done.grows.settles hset)
  · rcases List.mem_cons.mp ht' with rfl | hrest
    · rcases done.carried f hcarries with hset | ⟨t'', ht'', hcarries'⟩
      · exact Or.inl hset
      · exact Or.inr ⟨t'', List.mem_append_left _ ht'', hcarries'⟩
    · exact Or.inr ⟨t', List.mem_append_right _ hrest, hcarries.mono done.grows⟩

/-- **One task keeps the invariant.** -/
theorem Pursued.perform {st st' : State} {t : Task} {rest next : List Task}
    (h : Pursued rules entries ⟨st, t :: rest⟩) (done : Discharges rules st t st' next) :
    Pursued rules entries ⟨st', next ++ rest⟩ := by
  have carry : ∀ {t' : Task} {f : Fact}, t' ∈ next → t'.Carries rules st' f →
      Promised rules ⟨st', next ++ rest⟩ f :=
    fun ht' hf => Or.inr ⟨_, List.mem_append_left _ ht', hf⟩
  refine ⟨?_, ?_, ?_, ?_, ?_, ?_, ?_, ?_⟩
  · intro m hm
    exact (h.entry m hm).perform done
  · intro m hm s hs f hf
    rcases done.reachable m hm with hold | hnew
    · exact (h.stmt m hold s hs f hf).perform done
    · exact carry (hnew s hs) hf
  · intro m hm s hs v hv
    rcases done.reachable m hm with hold | hnew
    · rcases h.awaits m hold s hs v hv with hwait | htask
      · exact Or.inl (done.grows.mem_waitingFor hwait)
      · rcases List.mem_cons.mp htask with heq | hrest
        · exact Or.inl (done.awaits (m.1, s) v heq.symm hv)
        · exact Or.inr (List.mem_append_right _ hrest)
    · exact Or.inr (List.mem_append_left _ (hnew s hs))
  · intro p s hs o ho f hf
    have ho' : o ∈ st.objectsOf p := by
      rw [← done.objectsOf p]
      exact ho
    rcases done.waiting p s hs with hold | ⟨-, hnew⟩
    · exact (h.applied p s hold o ho' f hf).perform done
    · obtain ⟨objs, hobjs, htask⟩ := hnew o ho'
      exact carry htask ⟨o, hobjs, hf⟩
  · intro e he
    rcases done.edges e he with hold | ⟨henter, -⟩
    · exact (h.callee e hold).perform done
    · exact carry henter rfl
  · intro e he f hf
    rcases done.edges e he with hold | ⟨-, hwire⟩
    · exact (h.wired e hold f hf).perform done
    · exact carry hwire hf
  · intro p q hq o ho
    have ho' : o ∈ st.objectsOf p := by
      rw [← done.objectsOf p]
      exact ho
    rcases done.flows p q hq with hold | hnew
    · exact done.grows.due q o (h.flow p q hold o ho')
    · exact hnew o ho'
  · intro p s hs
    rcases done.waiting p s hs with hold | ⟨hvar, -⟩
    · exact h.vars p s hold
    · exact hvar

/-- With an empty agenda, a promise has been kept. -/
theorem Promised.settled {st : State} {f : Fact} (h : Promised rules ⟨st, []⟩ f) :
    st.Settles f := by
  rcases h with hset | ⟨t, ht, -⟩
  · exact hset
  · exact absurd ht List.not_mem_nil

/-- **One arrival keeps the invariant.** The objects that are new at the pointer are followed up by
the entries sent to its successors and by the notification of the statements that wait for it. -/
theorem Pursued.arrive {st : State} {p : Pointer} {objs : List HeapObj}
    {rest : Queue (Pointer × List HeapObj)} {c : Config} (h : Pursued rules entries ⟨st, []⟩)
    (pop : st.work.toList = (p, objs) :: rest.toList) (arrives : Arrives st p objs rest c) :
    Pursued rules entries c := by
  have grows := arrives.grows pop
  have keep : ∀ {f : Fact}, Promised rules ⟨st, []⟩ f → Promised rules c f :=
    fun hf => Or.inl (grows.settles hf.settled)
  -- an object is old, or it is fresh at the pointer where objects have arrived
  have split : ∀ q o, o ∈ c.state.objectsOf q →
      o ∈ st.objectsOf q ∨ (q = p ∧ o ∈ st.fresh p objs) := by
    intro q o ho
    rw [arrives.objectsOf q] at ho
    by_cases hq : q = p
    · subst hq
      rw [if_pos rfl, List.mem_append] at ho
      exact ho.imp id fun hfresh => ⟨rfl, hfresh⟩
    · rw [if_neg hq] at ho
      exact Or.inl ho
  refine ⟨?_, ?_, ?_, ?_, ?_, ?_, ?_, ?_⟩
  · intro m hm
    exact keep (h.entry m hm)
  · intro m hm s hs f hf
    rw [arrives.graph] at hm
    exact keep (h.stmt m hm s hs f hf)
  · intro m hm s hs v hv
    rw [arrives.graph] at hm
    rcases h.awaits m hm s hs v hv with hwait | htask
    · exact Or.inl (grows.mem_waitingFor hwait)
    · exact absurd htask List.not_mem_nil
  · intro q s hs o ho f hf
    have hs' : s ∈ st.waitingFor q := by rwa [arrives.waitingFor q] at hs
    rcases split q o ho with hold | ⟨rfl, hfresh⟩
    · exact keep (h.applied q s hs' o hold f hf)
    · have hagenda : c.agenda = [.notify q 0 (st.fresh q objs)] := by
        rw [arrives.agenda, if_neg]
        simp [h.vars q s hs', List.ne_nil_of_mem hfresh]
      refine Or.inr ⟨.notify q 0 (st.fresh q objs), ?_, s, hs, o, hfresh, hf⟩
      rw [hagenda]
      exact List.mem_cons_self
  · intro e he
    rw [arrives.graph] at he
    exact keep (h.callee e he)
  · intro e he f hf
    rw [arrives.graph] at he
    exact keep (h.wired e he f hf)
  · intro q r hr o ho
    have hr' : r ∈ st.successors q := by rwa [arrives.successors q] at hr
    rcases split q o ho with hold | ⟨rfl, hfresh⟩
    · exact grows.due r o (h.flow q r hr' o hold)
    · refine Or.inr ⟨st.fresh q objs, (arrives.work _).mpr (Or.inr ⟨?_, r, hr', rfl⟩), hfresh⟩
      exact List.ne_nil_of_mem hfresh
  · intro q s hs
    rw [arrives.waitingFor q] at hs
    exact h.vars q s hs

theorem Pursued.advance {c c' : Config} (h : Pursued rules entries c)
    (step : Advances rules c c') : Pursued rules entries c' := by
  -- the clock is no part of the invariant
  have tick : ∀ {c : Config}, Pursued rules entries c → Pursued rules entries (Rules.tick c) := by
    intro c hc
    have promise : ∀ {f : Fact}, Promised rules c f → Promised rules (Rules.tick c) f := by
      intro f hf
      rcases hf with hset | ⟨t, ht, hcarries⟩
      · exact Or.inl hset
      · exact Or.inr ⟨t, ht, hcarries⟩
    exact ⟨fun m hm => promise (hc.entry m hm),
      fun m hm s hs f hf => promise (hc.stmt m hm s hs f hf), hc.awaits,
      fun p s hs o ho f hf => promise (hc.applied p s hs o ho f hf),
      fun e he => promise (hc.callee e he), fun e he f hf => promise (hc.wired e he f hf),
      hc.flow, hc.vars⟩
  cases step with
  | task done => exact tick (h.perform done.discharges)
  | arrival pop arrives => exact tick (h.arrive pop arrives)
  | idle empty => exact tick h

/-- The invariant holds at the start of an analysis. -/
theorem Pursued.start : Pursued rules entries ⟨{}, entries.map .root⟩ := by
  refine ⟨?_, ?_, ?_, ?_, ?_, ?_, ?_, ?_⟩
  · intro m hm
    exact Or.inr ⟨.root m, List.mem_map.mpr ⟨m, hm, rfl⟩, rfl⟩
  · intro m hm
    exact absurd hm List.not_mem_nil
  · intro m hm
    exact absurd hm List.not_mem_nil
  · intro p s hs
    exact absurd hs List.not_mem_nil
  · intro e he
    exact absurd he List.not_mem_nil
  · intro e he
    exact absurd he List.not_mem_nil
  · intro p q hq
    exact absurd hq List.not_mem_nil
  · intro p s hs
    exact absurd hs List.not_mem_nil

/-- With nothing on its way, what is settled is recorded. -/
theorem State.Settles.holds {st : State} (empty : st.work.toList = []) :
    ∀ {f : Fact}, st.Settles f → st.Holds f := by
  intro f hf
  cases f with
  | reached m => exact hf
  | called e => exact hf
  | flows p q => exact hf
  | pointsTo p o =>
    rcases hf with ho | ⟨objs, hmem, -⟩
    · exact ho
    · rw [empty] at hmem
      exact absurd hmem List.not_mem_nil

/-- **At rest the invariant is closure**: no task is left to keep a promise, and nothing is on its
way. -/
theorem Pursued.closed {st : State} (h : Pursued rules entries ⟨st, []⟩)
    (empty : st.work.toList = []) : rules.Closed entries st.Holds := by
  have kept : ∀ {f : Fact}, Promised rules ⟨st, []⟩ f → st.Holds f :=
    fun hf => hf.settled.holds empty
  intro premises f step known
  cases step with
  | entry hm => exact kept (h.entry _ hm)
  | @stmt m s _ mem gives =>
    have hm : st.Holds (.reached m) := known _ List.mem_cons_self
    exact kept (h.stmt m hm s mem f gives)
  | @onObject m s v o _ mem awaits gives =>
    have hm : st.Holds (.reached m) := known _ List.mem_cons_self
    have ho : st.Holds (.pointsTo (.var m.1 v) o) :=
      known _ (List.mem_cons_of_mem _ List.mem_cons_self)
    rcases h.awaits m hm s mem v awaits with hwait | htask
    · exact kept (h.applied _ _ hwait o ho f gives)
    · exact absurd htask List.not_mem_nil
  | @callee e =>
    have he : st.Holds (.called e) := known _ List.mem_cons_self
    exact kept (h.callee e he)
  | @wiring e _ gives =>
    have he : st.Holds (.called e) := known _ List.mem_cons_self
    exact kept (h.wired e he f gives)
  | @flow p q o =>
    have hf : st.Holds (.flows p q) := known _ List.mem_cons_self
    have ho : st.Holds (.pointsTo p o) := known _ (List.mem_cons_of_mem _ List.mem_cons_self)
    exact State.Settles.holds (f := .pointsTo q o) empty (h.flow p q hf o ho)

/-- What a finished analysis has found out is closed under inference. -/
theorem closed_of_finished {n : Nat} {st : State}
    (h : rules.analyze n {} entries = .finished st) : rules.Closed entries st.Holds := by
  obtain ⟨st', pursued, empty, e, rfl⟩ :=
    analyze_finished (fun hc step => hc.advance step) Pursued.start h
  have closed := pursued.closed empty
  intro premises f step known
  cases f <;> exact closed premises _ step fun g hg => by cases g <;> exact known _ hg

/-- **Soundness of the pointer analysis.** For every code base, every choice of contexts and every
order in which sets of objects and of successors are gone through: the state in which an analysis
finishes is closed under the inference rules. The entries are reachable; every statement of a
reachable method has had its effect, on all objects of the operand that it waits for; every call
edge has made its callee reachable and is wired; and objects have followed all flow edges. -/
theorem analysis_sound (rules : Rules) (entries : List Method) (n : Nat) (st : State)
    (h : rules.analyze n {} entries = .finished st) : rules.Closed entries st.Holds :=
  closed_of_finished h

/-- The sample program is analysed in finitely many steps, and the cell comes back through the field
and the call. -/
theorem analysis_sound_sample :
    ∃ st, (Sample.rules (.objectChain 1)).analyze 60 {} [Sample.main] = .finished st ∧
      st.Holds (.pointsTo (.var [] (some (Sample.cellVar Sample.main "c"))) Sample.theCell) ∧
      (Sample.rules (.objectChain 1)).Closed [Sample.main] st.Holds :=
  ⟨_, rfl, by decide, analysis_sound _ _ 60 _ rfl⟩

end StaticAnalysis.PointsTo
