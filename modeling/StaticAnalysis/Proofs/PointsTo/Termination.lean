import StaticAnalysis.Proofs.PointsTo.Finiteness
import StaticAnalysis.Proofs.PointsTo.Precision
import StaticAnalysis.Proofs.PointsTo.Soundness

/-!
# Termination of the pointer analysis

Three quantities are compared one after the other, and every step of the machine makes the first
of them that changes smaller.

* `missing` — the facts of the finite universe that are not recorded yet.
* `agendaCost` — what the tasks on the agenda can still bring about without a new fact. Statements
  that are still to be executed may begin to wait, so a notification counts them among its waiting
  statements.
* the length of the worklist.

`lighter_of_advance` is the step lemma, `weight_induction` the induction over configurations that it
gives. From it follow both statements about runs: `run_ends` for the whole analysis, and
`completes_or_fails` for each task, which is off the agenda together with all that it has begun
after finitely many steps.

**Main statement** (`analysis_terminates`): an analysis comes to rest with an empty worklist, and
every task on its way is completed; only a reachable statement that leaves an operand open can
prevent this.
-/

namespace StaticAnalysis.PointsTo

/-! ### Facts that are missing -/

/-- Fewer elements are counted if one that was counted no longer is. -/
theorem countP_lt_countP {α : Type} {p q : α → Bool} :
    ∀ {l : List α}, (∀ x ∈ l, p x = true → q x = true) →
      (∃ x ∈ l, q x = true ∧ p x = false) → l.countP p < l.countP q := by
  intro l
  induction l with
  | nil =>
    rintro - ⟨x, hx, -⟩
    exact absurd hx List.not_mem_nil
  | cons a l ih =>
    rintro himp ⟨x, hx, hq, hp⟩
    have himp' : ∀ x ∈ l, p x = true → q x = true :=
      fun x hx => himp x (List.mem_cons_of_mem a hx)
    have hle : l.countP p ≤ l.countP q := List.countP_mono_left himp'
    rw [List.countP_cons, List.countP_cons]
    rcases List.mem_cons.mp hx with rfl | htail
    · rw [hq, hp]
      simp only [Bool.false_eq_true, if_false, if_true]
      omega
    · have hlt := ih himp' ⟨x, htail, hq, hp⟩
      by_cases ha : p a = true
      · rw [if_pos ha, if_pos (himp a List.mem_cons_self ha)]
        omega
      · rw [if_neg ha]
        omega

variable (rules : Rules) (entries : List Method)

/-- The number of facts of the universe that a state has not recorded. -/
def missing (st : State) : Nat := (Scope.facts rules entries).countP fun f => !decide (st.Holds f)

variable {rules entries}

theorem missing_le_of_grows {st st' : State} (h : State.Grows st st') :
    missing rules entries st' ≤ missing rules entries st := by
  refine List.countP_mono_left ?_
  intro f _ hf
  simp only [Bool.not_eq_true', decide_eq_false_iff_not] at hf ⊢
  exact fun hold => hf (h.holds hold)

theorem missing_lt_of_new {st st' : State} {f : Fact} (h : State.Grows st st')
    (derivable : rules.Derivable entries f) (before : ¬ st.Holds f) (after : st'.Holds f) :
    missing rules entries st' < missing rules entries st := by
  refine countP_lt_countP ?_ ⟨f, derivable.mem_facts, by simp [before], by simp [after]⟩
  intro g _ hg
  simp only [Bool.not_eq_true', decide_eq_false_iff_not] at hg ⊢
  exact fun hold => hg (h.holds hold)

/-! ### The cost of an agenda -/

def Task.isExec : Task → Bool
  | .exec _ => true
  | _ => false

/-- The number of statements that are still to be executed. -/
def executions (agenda : List Task) : Nat := agenda.countP Task.isExec

/-- The objects that a statement will find at the operand that it waits for. -/
def State.awaitedObjects (st : State) (s : CtxStmt) : List HeapObj :=
  match s.2.awaited? with
  | some v => st.objectsOf (.var s.1 v)
  | none => []

/-- What a task can bring about without a new fact, when `pending` statements are still to be
executed. -/
def Task.cost (st : State) (pending : Nat) : Task → Nat
  | .root _ => 2
  | .enter _ => 1
  | .exec s => 2 * (st.awaitedObjects s).length + 2
  | .resume _ objs => 2 * objs.length + 1
  | .invoke _ _ => 2
  | .link _ => 1
  | .wire _ => 1
  | .notify p next objs =>
    ((st.waitingFor p).length + pending - next) * (2 * objs.length + 2) + 1

def totalCost (st : State) (pending : Nat) (agenda : List Task) : Nat :=
  agenda.foldr (fun t total => t.cost st pending + total) 0

def agendaCost (c : Config) : Nat := totalCost c.state (executions c.agenda) c.agenda

theorem totalCost_append (st : State) (pending : Nat) (agenda agenda' : List Task) :
    totalCost st pending (agenda ++ agenda')
      = totalCost st pending agenda + totalCost st pending agenda' := by
  induction agenda with
  | nil => exact (Nat.zero_add _).symm
  | cons t agenda ih =>
    show t.cost st pending + totalCost st pending (agenda ++ agenda')
      = t.cost st pending + totalCost st pending agenda + totalCost st pending agenda'
    rw [ih, Nat.add_assoc]

/-- Tasks do not get more costly while the statements that wait and those that may begin to are not
more than before. -/
theorem Task.cost_le {st st' : State} {pending pending' : Nat}
    (objectsOf : ∀ p, st'.objectsOf p = st.objectsOf p)
    (waiting : ∀ p, (st'.waitingFor p).length + pending' ≤ (st.waitingFor p).length + pending) :
    ∀ t : Task, t.cost st' pending' ≤ t.cost st pending := by
  intro t
  cases t with
  | exec s =>
    have hobjs : st'.awaitedObjects s = st.awaitedObjects s := by
      rw [State.awaitedObjects, State.awaitedObjects]
      split
      · exact objectsOf _
      · rfl
    show 2 * (st'.awaitedObjects s).length + 2 ≤ 2 * (st.awaitedObjects s).length + 2
    exact Nat.le_of_eq (by rw [hobjs])
  | notify p next objs =>
    have hp := waiting p
    refine Nat.add_le_add_right (Nat.mul_le_mul_right _ ?_) 1
    omega
  | root m => exact Nat.le_refl _
  | enter m => exact Nat.le_refl _
  | resume s objs => exact Nat.le_refl _
  | invoke s o => exact Nat.le_refl _
  | link e => exact Nat.le_refl _
  | wire e => exact Nat.le_refl _

theorem totalCost_le {st st' : State} {pending pending' : Nat}
    (le : ∀ t : Task, t.cost st' pending' ≤ t.cost st pending) :
    ∀ agenda : List Task, totalCost st' pending' agenda ≤ totalCost st pending agenda := by
  intro agenda
  induction agenda with
  | nil => exact Nat.le_refl 0
  | cons t agenda ih =>
    show t.cost st' pending' + totalCost st' pending' agenda
      ≤ t.cost st pending + totalCost st pending agenda
    exact Nat.add_le_add (le t) ih

/-- A task that is replaced by less costly ones makes the agenda less costly. -/
theorem agendaCost_lt {st st' : State} {t : Task} {rest next : List Task}
    (objectsOf : ∀ p, st'.objectsOf p = st.objectsOf p)
    (waiting : ∀ p, (st'.waitingFor p).length + executions next
      ≤ (st.waitingFor p).length + executions [t])
    (cheaper : totalCost st' (executions next + executions rest) next
      < t.cost st (executions [t] + executions rest)) :
    agendaCost ⟨st', next ++ rest⟩ < agendaCost ⟨st, t :: rest⟩ := by
  have split' : executions (next ++ rest) = executions next + executions rest :=
    List.countP_append
  have split : executions ([t] ++ rest) = executions [t] + executions rest :=
    List.countP_append
  have hrest : totalCost st' (executions next + executions rest) rest
      ≤ totalCost st (executions [t] + executions rest) rest := by
    refine totalCost_le (Task.cost_le objectsOf ?_) rest
    intro p
    have hp := waiting p
    omega
  show totalCost st' (executions (next ++ rest)) (next ++ rest)
    < totalCost st (executions ([t] ++ rest)) (t :: rest)
  rw [split', split, totalCost_append]
  show _ < t.cost st (executions [t] + executions rest)
    + totalCost st (executions [t] + executions rest) rest
  omega

/-- The common case: nothing begins to wait and nothing is to be executed. -/
theorem agendaCost_lt_of_same {st st' : State} {t : Task} {rest next : List Task}
    (objectsOf : ∀ p, st'.objectsOf p = st.objectsOf p)
    (waitingFor : ∀ p, st'.waitingFor p = st.waitingFor p) (none : executions next = 0)
    (cheaper :
      totalCost st' (executions rest) next < t.cost st (executions [t] + executions rest)) :
    agendaCost ⟨st', next ++ rest⟩ < agendaCost ⟨st, t :: rest⟩ := by
  refine agendaCost_lt objectsOf ?_ ?_
  · intro p
    rw [waitingFor p, none]
    omega
  · rw [none, Nat.zero_add]
    exact cheaper

/-- A call on several objects costs less than the statement that makes it. -/
theorem totalCost_invoke (st : State) (pending : Nat) (s : CtxStmt) (objs : List HeapObj) :
    totalCost st pending (objs.map fun o => .invoke s o) = 2 * objs.length := by
  induction objs with
  | nil => rfl
  | cons o objs ih =>
    show 2 + totalCost st pending (objs.map fun o => .invoke s o) = 2 * (objs.length + 1)
    rw [ih]
    omega

theorem executions_invoke (s : CtxStmt) (objs : List HeapObj) :
    executions (objs.map fun o => .invoke s o) = 0 := by
  rw [executions, List.countP_eq_zero]
  intro t ht
  obtain ⟨o, -, rfl⟩ := List.mem_map.mp ht
  exact Bool.false_ne_true

/-- A statement that begins to wait: it now counts as waiting and no longer as pending. -/
theorem agendaCost_lt_of_hold {st : State} {s : CtxStmt} {v : Operand} {rest : List Task}
    (awaits : s.2.awaited? = some v) :
    agendaCost ⟨(hold st s v).1, (hold st s v).2 ++ rest⟩ < agendaCost ⟨st, .exec s :: rest⟩ := by
  have none : executions (hold st s v).2 = 0 := by
    rw [tasks_hold]
    split <;> rfl
  have found : st.awaitedObjects s = st.objectsOf (.var s.1 v) := by
    rw [State.awaitedObjects, awaits]
  refine agendaCost_lt (fun p => rfl) ?_ ?_
  · intro p
    rw [waitingFor_hold, none]
    show _ ≤ (st.waitingFor p).length + 1
    split
    · rw [List.length_append]
      exact Nat.le_refl _
    · omega
  · show _ < 2 * (st.awaitedObjects s).length + 2
    rw [found, tasks_hold]
    split
    · show 0 < _
      omega
    · show 2 * (st.objectsOf (.var s.1 v)).length + 1 + 0 < _
      omega

/-- A notification that goes on to the next statement. -/
theorem agendaCost_lt_of_notify {st : State} {p : Pointer} {next : Nat} {objs : List HeapObj}
    {s : CtxStmt} {rest : List Task} (h : (st.waitingFor p)[next]? = some s) :
    agendaCost ⟨st, [.resume s objs, .notify p (next + 1) objs] ++ rest⟩
      < agendaCost ⟨st, .notify p next objs :: rest⟩ := by
  obtain ⟨hlt, -⟩ := List.getElem?_eq_some_iff.mp h
  refine agendaCost_lt_of_same (fun q => rfl) (fun q => rfl) rfl ?_
  show 2 * objs.length + 1
      + (((st.waitingFor p).length + executions rest - (next + 1)) * (2 * objs.length + 2) + 1 + 0)
    < ((st.waitingFor p).length + (0 + executions rest) - next) * (2 * objs.length + 2) + 1
  have one : (st.waitingFor p).length + (0 + executions rest) - next
      = (st.waitingFor p).length + executions rest - (next + 1) + 1 := by omega
  rw [one, Nat.add_one_mul ((st.waitingFor p).length + executions rest - (next + 1))]
  omega

/-- **A task gives a new fact or makes the agenda less costly.** -/
theorem Performs.newFact_or_cheaper {st st' : State} {t : Task} {next : List Task}
    (done : Performs rules st t st' next) (rest : List Task) :
    (∃ f, ¬ st.Holds f ∧ st'.Holds f) ∨
      agendaCost ⟨st', next ++ rest⟩ < agendaCost ⟨st, t :: rest⟩ := by
  have objectsOf := done.discharges.objectsOf
  cases done with
  | root m => exact Or.inr (agendaCost_lt_of_same objectsOf (fun p => rfl) rfl (Nat.lt_succ_self 1))
  | known hm => exact Or.inr (agendaCost_lt_of_same objectsOf (fun p => rfl) rfl Nat.one_pos)
  | @enter m hm => exact Or.inl ⟨.reached m, hm, List.mem_append_right _ List.mem_cons_self⟩
  | alloc awaits gives =>
    exact Or.inr (agendaCost_lt_of_same objectsOf (fun p => rfl) rfl (Nat.succ_pos _))
  | direct awaits connected gives =>
    exact Or.inr (agendaCost_lt_of_same objectsOf connected.waitingFor rfl (Nat.succ_pos _))
  | hold awaits gives => exact Or.inr (agendaCost_lt_of_hold awaits)
  | @callDirectly s e awaits gives =>
    refine Or.inr (agendaCost_lt_of_same objectsOf (fun p => rfl) rfl ?_)
    show 1 + 0 < 2 * (st.awaitedObjects s).length + 2
    omega
  | access connected gives =>
    exact Or.inr (agendaCost_lt_of_same objectsOf connected.waitingFor rfl (Nat.succ_pos _))
  | @spread s objs ordered call perm =>
    refine Or.inr (agendaCost_lt_of_same objectsOf (fun p => rfl) (executions_invoke s ordered) ?_)
    rw [totalCost_invoke, perm.length_eq]
    exact Nat.lt_succ_self _
  | noTarget gives => exact Or.inr (agendaCost_lt_of_same objectsOf (fun p => rfl) rfl Nat.two_pos)
  | @callOn s o e gives =>
    exact Or.inr (agendaCost_lt_of_same objectsOf (st.waitingFor_seed e.callee o) rfl
      (Nat.lt_succ_self 1))
  | linked he => exact Or.inr (agendaCost_lt_of_same objectsOf (fun p => rfl) rfl Nat.one_pos)
  | @link e he =>
    refine Or.inl ⟨.called e, he, ?_⟩
    show e ∈ (st.graph.addEdge e).2.edges
    rw [CallGraph.edges_addEdge]
    exact mem_adjoin.mpr (Or.inr rfl)
  | wire connected gives =>
    exact Or.inr (agendaCost_lt_of_same objectsOf connected.waitingFor rfl Nat.one_pos)
  | notified hnext =>
    exact Or.inr (agendaCost_lt_of_same objectsOf (fun p => rfl) rfl (Nat.succ_pos _))
  | notify hs => exact Or.inr (agendaCost_lt_of_notify hs)

/-! ### The weight of a configuration -/

/-- What every step makes smaller, the first component counting most. -/
def weight (rules : Rules) (entries : List Method) (c : Config) : Nat × Nat × Nat :=
  (missing rules entries c.state, agendaCost c, c.state.work.toList.length)

def Lighter : Nat × Nat × Nat → Nat × Nat × Nat → Prop :=
  Prod.Lex (· < ·) (Prod.Lex (· < ·) (· < ·))

theorem lighter_wf : WellFounded Lighter :=
  (Prod.lex Nat.lt_wfRel (Prod.lex Nat.lt_wfRel Nat.lt_wfRel)).wf

theorem lighter_of_missing {a a' b b' : Nat} {l l' : Nat} (h : a' < a) :
    Lighter (a', b', l') (a, b, l) :=
  Prod.Lex.left _ _ h

theorem lighter_of_cost {a a' b b' : Nat} {l l' : Nat} (h : a' ≤ a) (hb : b' < b) :
    Lighter (a', b', l') (a, b, l) := by
  rcases Nat.lt_or_eq_of_le h with hlt | rfl
  · exact Prod.Lex.left _ _ hlt
  · exact Prod.Lex.right _ (Prod.Lex.left _ _ hb)

theorem lighter_of_work {a a' b b' : Nat} {l l' : Nat} (h : a' ≤ a) (hb : b' = b) (hl : l' < l) :
    Lighter (a', b', l') (a, b, l) := by
  subst hb
  rcases Nat.lt_or_eq_of_le h with hlt | rfl
  · exact Prod.Lex.left _ _ hlt
  · exact Prod.Lex.right _ (Prod.Lex.right _ hl)

theorem weight_tick (c : Config) : weight rules entries (Rules.tick c) = weight rules entries c :=
  rfl

/-- Whether there is something left to do. -/
def Config.IsBusy (c : Config) : Prop := c.agenda ≠ [] ∨ c.state.work.toList ≠ []

/-- **Every step of a busy machine makes it lighter.** -/
theorem lighter_of_advance {c c' : Config} (justified : Justified rules entries c)
    (busy : c.IsBusy) (step : Advances rules c c') :
    Lighter (weight rules entries c') (weight rules entries c) := by
  have justified' := justified.advance step
  cases step with
  | @task st st' t rest next done =>
    have grows := done.discharges.grows
    rw [weight_tick]
    rcases done.newFact_or_cheaper rest with ⟨f, before, after⟩ | cheaper
    · have derivable : rules.Derivable entries f :=
        justified'.settled f (by cases f <;> exact State.Holds.settles after)
      exact lighter_of_missing (missing_lt_of_new grows derivable before after)
    · exact lighter_of_cost (missing_le_of_grows grows) cheaper
  | @arrival st p objs rest c pop arrives =>
    have grows := arrives.grows pop
    rw [weight_tick]
    by_cases hfresh : st.fresh p objs = []
    · have hagenda : c.agenda = [] := by
        rw [arrives.agenda, hfresh]
        rfl
      refine lighter_of_work (missing_le_of_grows grows) ?_ ?_
      · show totalCost _ (executions c.agenda) c.agenda = 0
        rw [hagenda]
        rfl
      · show c.state.work.toList.length < st.work.toList.length
        rw [arrives.unchanged hfresh, pop, List.length_cons]
        exact Nat.lt_succ_self _
    · obtain ⟨o, ho⟩ := List.exists_mem_of_ne_nil _ hfresh
      have after : c.state.Holds (.pointsTo p o) := by
        show o ∈ c.state.objectsOf p
        rw [arrives.objectsOf p, if_pos rfl]
        exact List.mem_append_right _ ho
      exact lighter_of_missing
        (missing_lt_of_new grows (justified'.objects after) (State.mem_fresh.mp ho).2 after)
  | @idle st empty =>
    rcases busy with hagenda | hwork
    · exact absurd rfl hagenda
    · exact absurd empty hwork

/-- Induction along the steps of the machine. -/
theorem weight_induction {P : Config → Prop}
    (h : ∀ c, Justified rules entries c →
      (∀ c', c.IsBusy → Advances rules c c' → P c') → P c) :
    ∀ c, Justified rules entries c → P c := by
  intro c
  induction c using (InvImage.wf (weight rules entries) lighter_wf).induction with
  | _ c ih =>
    intro justified
    refine h c justified ?_
    intro c' busy step
    exact ih c' (lighter_of_advance justified busy step) (justified.advance step)

/-! ### Runs end -/

theorem Config.isBusy_of_done {c : Config} (h : Rules.done c = false) : c.IsBusy := by
  by_cases hagenda : c.agenda = []
  · refine Or.inr fun hwork => ?_
    rw [Rules.done, hagenda, Queue.isEmpty_iff.mpr hwork] at h
    contradiction
  · exact Or.inl hagenda

/-- A run has ended: at rest, or at a task that fails. -/
inductive Ended (rules : Rules) (entries : List Method) : Outcome → Prop where
  | finished (st : State) : Ended rules entries (.finished st)
  | failed {c : Config} {f : Fault} (justified : Justified rules entries c)
      (h : rules.step c = .error f) : Ended rules entries (.failed c.state f)

/-- **A run needs only finitely many steps**, and more make no difference. -/
theorem run_ends : ∀ c, Justified rules entries c →
    ∃ n o, Ended rules entries o ∧ ∀ k, n ≤ k → rules.run Rules.done k c = o := by
  refine weight_induction ?_
  intro c justified ih
  cases atRest : Rules.done c with
  | true =>
    refine ⟨0, _, .finished c.state, ?_⟩
    intro k _
    cases k <;> rw [Rules.run, if_pos atRest]
  | false =>
    have going : ¬ Rules.done c = true := by simp [atRest]
    cases hstep : rules.step c with
    | error f =>
      refine ⟨1, _, .failed justified hstep, ?_⟩
      intro k hk
      obtain ⟨k, rfl⟩ := Nat.exists_eq_add_of_le' hk
      rw [Rules.run, if_neg going, hstep]
    | ok c' =>
      obtain ⟨n, o, ended, run⟩ := ih c' (Config.isBusy_of_done atRest) (advances_of_step hstep)
      refine ⟨n + 1, o, ended, ?_⟩
      intro k hk
      obtain ⟨k, rfl⟩ := Nat.exists_eq_add_of_le' (Nat.le_trans (Nat.le_add_left 1 n) hk)
      rw [Rules.run, if_neg going, hstep]
      exact run k (Nat.le_of_succ_le_succ hk)

/-- The configurations on the way of a run keep what every step keeps. -/
theorem run_unfinished {P : Config → Prop}
    (kept : ∀ {c c' : Config}, P c → Advances rules c c' → P c') {atRest : Config → Bool} {n : Nat}
    {c c' : Config} (hc : P c) (h : rules.run atRest n c = .unfinished c') : P c' := by
  have ended : ∃ c'', P c'' ∧ EndsAt rules atRest c'' (rules.run atRest n c) :=
    run_endsAt (fun hc hstep => kept hc (advances_of_step hstep)) n hc
  obtain ⟨c'', hc'', ends⟩ := ended
  rw [h] at ends
  cases ends with
  | unfinished => exact hc''

/-! ### Tasks are completed -/

/-- Working off the tasks in front of `rest`, with all that they begin: the configuration where only
`rest` is left, or the fault of a task that could not be done. -/
inductive Rules.Completes (rules : Rules) (rest : List Task) :
    Config → Except Fault Config → Prop where
  | done {c : Config} (h : c.agenda = rest) : Completes rules rest c (.ok c)
  | fault {c : Config} {t : Task} {front : List Task} {f : Fault}
      (h : c.agenda = t :: (front ++ rest)) (step : rules.step c = .error f) :
      Completes rules rest c (.error f)
  | step {c c' : Config} {t : Task} {front : List Task} {r : Except Fault Config}
      (h : c.agenda = t :: (front ++ rest)) (step : rules.step c = .ok c')
      (later : Completes rules rest c' r) : Completes rules rest c r

/-- A step only replaces the first task. -/
theorem agenda_of_step {c c' : Config} {t : Task} {rest : List Task} (h : c.agenda = t :: rest)
    (step : rules.step c = .ok c') : ∃ next, c'.agenda = next ++ rest := by
  obtain ⟨st, agenda⟩ := c
  obtain rfl : agenda = t :: rest := h
  obtain ⟨r, -, rfl⟩ := perform_of_step step
  exact ⟨r.2, rfl⟩

/-- **Every beginning of an agenda is worked off** in finitely many steps, unless a task fails. -/
theorem completes_or_fails (rest : List Task) : ∀ c, Justified rules entries c →
    ∀ front, c.agenda = front ++ rest →
      (∃ c', rules.Completes rest c (.ok c')) ∨
        ∃ f, rules.Completes rest c (.error f) ∧
          ∃ c', Justified rules entries c' ∧ rules.step c' = .error f := by
  refine weight_induction ?_
  intro c justified ih front hagenda
  cases front with
  | nil => exact Or.inl ⟨c, .done hagenda⟩
  | cons t front =>
    cases hstep : rules.step c with
    | error f => exact Or.inr ⟨f, .fault hagenda hstep, c, justified, hstep⟩
    | ok c' =>
      have busy : c.IsBusy := Or.inl (by rw [hagenda]; exact List.cons_ne_nil _ _)
      obtain ⟨next, hnext⟩ := agenda_of_step hagenda hstep
      have hsplit : c'.agenda = (next ++ front) ++ rest := by
        rw [List.append_assoc]
        exact hnext
      rcases ih c' busy (advances_of_step hstep) _ hsplit with ⟨c'', hdone⟩ | ⟨f, hfault, at'⟩
      · exact Or.inl ⟨c'', .step hagenda hstep hdone⟩
      · exact Or.inr ⟨f, .step hagenda hstep hfault, at'⟩

/-! ### Faults -/

/-- A statement of a reachable method leaves an operand open that has to be looked at. -/
def Rules.MeetsGap (rules : Rules) (entries : List Method) : Prop :=
  ∃ m : CtxMethod, rules.Derivable entries (.reached m) ∧
    ∃ s ∈ (rules.code.body m.2).stmts, s.isOpen = true

/-- **Why a step can fail**: it executes a statement that is not known or leaves an operand open. -/
theorem exec_of_fault {c : Config} {f : Fault} (decides : ∀ k, rules.selector ≠ .undecided k)
    (justified : Justified rules entries c) (h : rules.step c = .error f) :
    ∃ s, .exec s ∈ c.agenda ∧
      ((s.2.isUnknown = true ∧ f = s.2.refusal) ∨ (s.2.isOpen = true ∧ f = .operandMissing)) := by
  obtain ⟨t, rest, agenda, failed⟩ := perform_of_fault h
  have first : t ∈ c.agenda := by
    rw [agenda]
    exact List.mem_cons_self
  have right : t.Justified rules entries := justified.agenda t first
  rcases perform_error failed with ⟨-, k, undecided⟩ | ⟨s, rfl, hs⟩ | ⟨s, objs, rfl, awaits⟩ |
      ⟨s, o, rfl, call⟩
  · exact absurd undecided (decides k)
  · exact ⟨s, first, hs⟩
  · rw [Task.Justified, awaits] at right
    exact absurd right.1 Bool.false_ne_true
  · rw [Task.Justified, call] at right
    exact absurd right.1 Bool.false_ne_true

/-- A step that fails for programs with known statements: it executes a statement with an open
operand. -/
theorem fault_of_justified {c : Config} {f : Fault} (decides : ∀ k, rules.selector ≠ .undecided k)
    (known : ∀ m, ∀ s ∈ (rules.code.body m).stmts, s.isUnknown = false)
    (justified : Justified rules entries c) (h : rules.step c = .error f) :
    rules.MeetsGap entries ∧ f = .operandMissing := by
  obtain ⟨s, task, fault⟩ := exec_of_fault decides justified h
  obtain ⟨m, reached, mem⟩ := justified.agenda _ task
  rcases fault with ⟨unknown, -⟩ | ⟨gap, rfl⟩
  · rw [known m s.2 mem] at unknown
    contradiction
  · exact ⟨⟨(s.1, m), reached, s.2, mem, gap⟩, rfl⟩

/-! ### The statement about analyses -/

/-- An analysis ends like its run, from whatever state it starts. -/
theorem analyze_ends_from {st : State} {more : List Method}
    (start : Justified rules entries ⟨st, more.map .root⟩) :
    ∃ n o, Ended rules entries o ∧ ∀ k, n ≤ k → rules.analyze k st more = o := by
  obtain ⟨n, o, ended, run⟩ := run_ends _ start
  refine ⟨n, rules.analyze n st more, ?_, ?_⟩
  · rw [Rules.analyze, run n (Nat.le_refl n)]
    cases ended with
    | finished st => exact .finished _
    | failed justified h => exact .failed justified h
  · intro k hk
    rw [Rules.analyze, run k hk, Rules.analyze, run n (Nat.le_refl n)]

theorem analyze_ends (rules : Rules) (entries : List Method) :
    ∃ n o, Ended rules entries o ∧ ∀ k, n ≤ k → rules.analyze k {} entries = o :=
  analyze_ends_from .start

/-- An analysis of known statements has a result, unless it meets an open operand. -/
theorem analyze_finishes_from {st : State} {more : List Method}
    (start : Justified rules entries ⟨st, more.map .root⟩)
    (decides : ∀ k, rules.selector ≠ .undecided k)
    (known : ∀ m, ∀ s ∈ (rules.code.body m).stmts, s.isUnknown = false)
    (gapless : ¬ rules.MeetsGap entries) :
    ∃ n st', ∀ k, n ≤ k → rules.analyze k st more = .finished st' := by
  obtain ⟨n, o, ended, run⟩ := analyze_ends_from start
  cases ended with
  | finished st' => exact ⟨n, st', run⟩
  | failed justified h => exact absurd (fault_of_justified decides known justified h).1 gapless

/-- If all statements are known and leave no operand open, then every analysis has a result. -/
theorem analyze_finishes (rules : Rules) (entries : List Method)
    (decides : ∀ k, rules.selector ≠ .undecided k)
    (complete : ∀ m, ∀ s ∈ (rules.code.body m).stmts, s.isUnknown = false ∧ s.isOpen = false) :
    ∃ n st, ∀ k, n ≤ k → rules.analyze k {} entries = .finished st := by
  have gapless : ¬ rules.MeetsGap entries := by
    rintro ⟨m, -, s, mem, gap⟩
    rw [(complete m.2 s mem).2] at gap
    contradiction
  exact analyze_finishes_from .start decides (fun m s hs => (complete m s hs).1) gapless

/-- **Every analysis terminates.** With enough steps it comes to rest, always in the same way, with
an empty worklist; and whenever a task is begun on the way, it is completed with all that it begins.
Both fail only if a statement of a reachable method leaves an operand open. -/
theorem analysis_terminates (rules : Rules) (entries : List Method)
    (decides : ∀ k, rules.selector ≠ .undecided k)
    (known : ∀ m, ∀ s ∈ (rules.code.body m).stmts, s.isUnknown = false) :
    (∃ n o, (∀ k, n ≤ k → rules.analyze k {} entries = o) ∧
      ((∃ st, o = .finished st ∧ st.work.toList = []) ∨
        rules.MeetsGap entries ∧ ∃ st, o = .failed st .operandMissing)) ∧
    ∀ i c, rules.run Rules.done i ⟨{}, entries.map .root⟩ = .unfinished c →
      ∀ t rest, c.agenda = t :: rest →
        (∃ c', rules.Completes rest c (.ok c')) ∨
          rules.MeetsGap entries ∧ rules.Completes rest c (.error .operandMissing) := by
  have start : Justified rules entries ⟨{}, entries.map .root⟩ := .start
  refine ⟨?_, ?_⟩
  · obtain ⟨n, o, ended, run⟩ := analyze_ends rules entries
    refine ⟨n, o, run, ?_⟩
    cases ended with
    | finished st =>
      obtain ⟨st', -, empty, e, rfl⟩ :=
        analyze_finished Justified.advance start (run n (Nat.le_refl n))
      exact Or.inl ⟨_, rfl, empty⟩
    | @failed c f justified h =>
      obtain ⟨gap, rfl⟩ := fault_of_justified decides known justified h
      exact Or.inr ⟨gap, c.state, rfl⟩
  · intro i c hrun t rest hagenda
    have justified : Justified rules entries c := run_unfinished Justified.advance start hrun
    rcases completes_or_fails rest c justified [t] hagenda with done | ⟨f, fails, c', justified', h⟩
    · exact Or.inl done
    · obtain ⟨gap, rfl⟩ := fault_of_justified decides known justified' h
      exact Or.inr ⟨gap, fails⟩

/-- In the sample program a method calls itself on every cell of a cyclic heap. -/
theorem analysis_terminates_sample :
    (∃ n o, (∀ k, n ≤ k → (Sample.rules (.objectChain 2)).analyze k {} [Sample.main] = o) ∧
      ((∃ st, o = .finished st ∧ st.work.toList = []) ∨
        (Sample.rules (.objectChain 2)).MeetsGap [Sample.main] ∧
        ∃ st, o = .failed st .operandMissing)) ∧
    ∀ i c, (Sample.rules (.objectChain 2)).run Rules.done i ⟨{}, [.root Sample.main]⟩ =
      .unfinished c →
      ∀ t rest, c.agenda = t :: rest →
        (∃ c', (Sample.rules (.objectChain 2)).Completes rest c (.ok c')) ∨
          (Sample.rules (.objectChain 2)).MeetsGap [Sample.main] ∧
            (Sample.rules (.objectChain 2)).Completes rest c (.error .operandMissing) := by
  refine analysis_terminates (Sample.rules (.objectChain 2)) [Sample.main] (fun k h => nomatch h) ?_
  have known : ∀ s ∈ Sample.code.allStmts, s.isUnknown = false := by decide
  intro m s hs
  exact known s (CodeBase.mem_allStmts hs)

end StaticAnalysis.PointsTo
