import StaticAnalysis.Proofs.PointsTo.Steps

/-!
# Precision of the pointer analysis

The machine finds out nothing but what follows from the entries by the inference rules.

* `Task.Justified` — what makes a task right: the facts that it will record have derivations.
* `Justified` — the invariant: all that is recorded, on its way, waiting or on the agenda is
  justified.
* `Justified.perform`, `Justified.arrive` — one task and one arrival keep it; `Justified.advance`
  one step, and `analyze_finished` carries it over to whole analyses.

**Main statement** (`analysis_precise`): every fact of a finished analysis is derivable, and so it
belongs to every closed set of facts.
-/

namespace StaticAnalysis.PointsTo

variable (rules : Rules) (entries : List Method)

/-- A statement stands in a method that is derivably reachable. -/
def Stands (s : CtxStmt) : Prop :=
  ∃ m, rules.Derivable entries (.reached (s.1, m)) ∧ s.2 ∈ (rules.code.body m).stmts

/-- A statement waits for an operand that derivably has the object. -/
def Applies (s : CtxStmt) (o : HeapObj) : Prop :=
  Stands rules entries s ∧
    ∃ v, s.2.awaited? = some v ∧ rules.Derivable entries (.pointsTo (.var s.1 v) o)

/-- What makes a task right. -/
def Task.Justified : Task → Prop
  | .root m => m ∈ entries
  | .enter m => rules.Derivable entries (.reached m)
  | .exec s => Stands rules entries s
  | .resume s objs => s.2.awaited?.isSome = true ∧ ∀ o ∈ objs, Applies rules entries s o
  | .invoke s o => s.2.isCall = true ∧ Applies rules entries s o
  | .link e => rules.Derivable entries (.called e)
  | .wire e => rules.Derivable entries (.called e)
  | .notify p _ objs => ∀ o ∈ objs, rules.Derivable entries (.pointsTo p o)

/-- All that the machine knows and has begun is justified. -/
structure Justified (c : Config) : Prop where
  settled : ∀ f, c.state.Settles f → rules.Derivable entries f
  waiting : ∀ p s, s ∈ c.state.waitingFor p →
    Stands rules entries s ∧ ∃ v, s.2.awaited? = some v ∧ p = .var s.1 v
  agenda : ∀ t ∈ c.agenda, t.Justified rules entries

variable {rules entries}

theorem Applies.derivable {s : CtxStmt} {o : HeapObj} {f : Fact} (h : Applies rules entries s o)
    (gives : rules.GivesOn s o f) : rules.Derivable entries f := by
  obtain ⟨⟨m, hm, mem⟩, v, awaits, ho⟩ := h
  exact .onObject (m := (s.1, m)) hm mem awaits ho gives

theorem Stands.derivable {s : CtxStmt} {f : Fact} (h : Stands rules entries s)
    (gives : rules.Gives s f) : rules.Derivable entries f := by
  obtain ⟨m, hm, mem⟩ := h
  exact .stmt (m := (s.1, m)) hm mem gives

namespace Justified

theorem objects {c : Config} (h : Justified rules entries c) {p : Pointer} {o : HeapObj}
    (ho : o ∈ c.state.objectsOf p) : rules.Derivable entries (.pointsTo p o) :=
  h.settled (.pointsTo p o) (Or.inl ho)

/-- What a task adds has to be justified; the rest is. -/
theorem extend {st st' : State} {t : Task} {rest next : List Task}
    (h : Justified rules entries ⟨st, t :: rest⟩)
    (settled : ∀ f, st'.Settles f → st.Settles f ∨ rules.Derivable entries f)
    (waiting : ∀ p, st'.waitingFor p = st.waitingFor p)
    (agenda : ∀ t' ∈ next, t'.Justified rules entries) :
    Justified rules entries ⟨st', next ++ rest⟩ where
  settled f hf := (settled f hf).elim (h.settled f) id
  waiting p s hs := h.waiting p s (by rw [← waiting p]; exact hs)
  agenda t' ht' := by
    rcases List.mem_append.mp ht' with hnext | hrest
    · exact agenda t' hnext
    · exact h.agenda t' (List.mem_cons_of_mem t hrest)

/-- Connecting derivable pairs is justified. -/
theorem connect {st st' : State} {t : Task} {rest : List Task} {l : List (Pointer × Pointer)}
    (h : Justified rules entries ⟨st, t :: rest⟩) (connected : Connected st l st')
    (derivable : ∀ p q, (p, q) ∈ l → rules.Derivable entries (.flows p q)) :
    Justified rules entries ⟨st', [] ++ rest⟩ := by
  refine h.extend ?_ connected.waitingFor (by simp)
  intro f hf
  rcases connected.settles hf with hold | ⟨p, q, rfl, hl⟩ | ⟨p, q, o, rfl, hl, ho⟩
  · exact Or.inl hold
  · exact Or.inr (derivable p q hl)
  · exact Or.inr (.flow (derivable p q hl) (h.objects ho))

/-- Sending a derivable object is justified. -/
theorem send {st : State} {t : Task} {rest next : List Task} {p : Pointer} {o : HeapObj}
    (h : Justified rules entries ⟨st, t :: rest⟩)
    (derivable : rules.Derivable entries (.pointsTo p o))
    (agenda : ∀ t' ∈ next, t'.Justified rules entries) :
    Justified rules entries ⟨st.send p [o], next ++ rest⟩ := by
  refine h.extend ?_ (fun q => rfl) agenda
  intro f hf
  rcases State.settles_send hf with hold | ⟨o', ho', rfl⟩
  · exact Or.inl hold
  · rw [List.mem_singleton] at ho'
    subst ho'
    exact Or.inr derivable

theorem mention {st : State} {agenda : List Task} (p : Pointer)
    (h : Justified rules entries ⟨st, agenda⟩) : Justified rules entries ⟨st.mention p, agenda⟩ :=
  ⟨h.settled, h.waiting, h.agenda⟩

theorem mentionObj {st : State} {agenda : List Task} (o : HeapObj)
    (h : Justified rules entries ⟨st, agenda⟩) :
    Justified rules entries ⟨st.mentionObj o, agenda⟩ :=
  ⟨h.settled, h.waiting, h.agenda⟩

/-- A statement that begins to wait is shown the objects that its operand has already. -/
theorem hold {st : State} {s : CtxStmt} {rest : List Task} {v : Operand}
    (h : Justified rules entries ⟨st, .exec s :: rest⟩) (awaits : s.2.awaited? = some v) :
    Justified rules entries ⟨(hold st s v).1, (hold st s v).2 ++ rest⟩ := by
  have stands : Stands rules entries s := h.agenda _ List.mem_cons_self
  refine ⟨h.settled, ?_, ?_⟩
  · intro p s' hs'
    rw [waitingFor_hold] at hs'
    by_cases hp : p = .var s.1 v
    · rw [if_pos hp, List.mem_append, List.mem_singleton] at hs'
      rcases hs' with hold | rfl
      · exact h.waiting p s' hold
      · exact ⟨stands, v, awaits, hp⟩
    · rw [if_neg hp] at hs'
      exact h.waiting p s' hs'
  · intro t ht
    rcases List.mem_append.mp ht with hnext | hrest
    · have htask : t = .resume s (st.objectsOf (.var s.1 v)) := by
        rw [tasks_hold] at hnext
        split at hnext
        · exact absurd hnext List.not_mem_nil
        · exact List.mem_singleton.mp hnext
      subst htask
      refine ⟨by rw [awaits]; rfl, ?_⟩
      intro o ho
      exact ⟨stands, v, awaits, h.objects ho⟩
    · exact h.agenda t (List.mem_cons_of_mem _ hrest)

/-- **One task keeps the invariant.** -/
theorem perform {st st' : State} {t : Task} {rest next : List Task}
    (h : Justified rules entries ⟨st, t :: rest⟩) (done : Performs rules st t st' next) :
    Justified rules entries ⟨st', next ++ rest⟩ := by
  have task : t.Justified rules entries := h.agenda t List.mem_cons_self
  cases done with
  | root m =>
    refine h.extend (fun f hf => Or.inl hf) (fun p => rfl) ?_
    intro t' ht'
    rw [List.mem_singleton] at ht'
    subst ht'
    exact Rules.Derivable.entry task
  | known hm => exact h.extend (fun f hf => Or.inl hf) (fun p => rfl) (by simp)
  | @enter m hm =>
    refine h.extend ?_ (fun p => rfl) ?_
    · intro f hf
      cases f with
      | reached m' =>
        rcases List.mem_append.mp hf with hold | hnew
        · exact Or.inl hold
        · rw [List.mem_singleton] at hnew
          subst hnew
          exact Or.inr task
      | called e => exact Or.inl hf
      | flows p q => exact Or.inl hf
      | pointsTo p o => exact Or.inl hf
    · intro t' ht'
      obtain ⟨s, hs, rfl⟩ := List.mem_map.mp ht'
      exact ⟨m.2, task, hs⟩
  | alloc awaits gives =>
    exact ((h.mentionObj _).mention _).send (Stands.derivable task ((gives _).mpr rfl)) (by simp)
  | direct awaits connected gives =>
    refine h.connect connected ?_
    intro p q hl
    exact Stands.derivable task ((gives _).mpr ⟨p, q, rfl, hl⟩)
  | hold awaits gives => exact h.hold awaits
  | callDirectly awaits gives =>
    refine h.extend (fun f hf => Or.inl hf) (fun p => rfl) ?_
    intro t' ht'
    rw [List.mem_singleton] at ht'
    subst ht'
    exact Stands.derivable task ((gives _).mpr rfl)
  | access connected gives =>
    refine h.connect connected ?_
    intro p q hl
    obtain ⟨o, ho, hgives⟩ := (gives (.flows p q)).mpr ⟨p, q, rfl, hl⟩
    exact (task.2 o ho).derivable hgives
  | @spread s objs ordered call perm =>
    refine h.extend (fun f hf => Or.inl hf) (fun p => rfl) ?_
    intro t' ht'
    obtain ⟨o, ho, rfl⟩ := List.mem_map.mp ht'
    exact ⟨call, task.2 o (perm.mem_iff.mp ho)⟩
  | noTarget gives => exact h.extend (fun f hf => Or.inl hf) (fun p => rfl) (by simp)
  | @callOn s o e gives =>
    have link : ∀ t' ∈ [Task.link e], t'.Justified rules entries := by
      intro t' ht'
      rw [List.mem_singleton] at ht'
      subst ht'
      exact task.2.derivable ((gives _).mpr (Or.inl rfl))
    rw [State.seed]
    split
    · next v this =>
      exact (h.mention _).send (task.2.derivable ((gives _).mpr (Or.inr ⟨v, this, rfl⟩))) link
    · exact h.extend (fun f hf => Or.inl hf) (fun p => rfl) link
  | linked he => exact h.extend (fun f hf => Or.inl hf) (fun p => rfl) (by simp)
  | @link e he =>
    refine h.extend ?_ (fun p => rfl) ?_
    · intro f hf
      cases f with
      | reached m =>
        have hm : m ∈ (st.graph.addEdge e).2.reachable := hf
        rw [CallGraph.reachable_addEdge] at hm
        exact Or.inl hm
      | called e' =>
        have he' : e' ∈ (st.graph.addEdge e).2.edges := hf
        rw [CallGraph.edges_addEdge] at he'
        rcases mem_adjoin.mp he' with hold | rfl
        · exact Or.inl hold
        · exact Or.inr task
      | flows p q => exact Or.inl hf
      | pointsTo p o => exact Or.inl hf
    · intro t' ht'
      rcases List.mem_cons.mp ht' with rfl | ht'
      · exact Rules.Derivable.callee task
      · rw [List.mem_singleton] at ht'
        subst ht'
        exact task
  | wire connected gives =>
    refine h.connect connected ?_
    intro p q hl
    exact Rules.Derivable.wiring task ((gives _).mpr ⟨p, q, rfl, hl⟩)
  | notified hnext => exact h.extend (fun f hf => Or.inl hf) (fun p => rfl) (by simp)
  | @notify p next objs s hs =>
    obtain ⟨stands, v, awaits, rfl⟩ := h.waiting p s (List.mem_of_getElem? hs)
    refine h.extend (fun f hf => Or.inl hf) (fun p => rfl) ?_
    intro t' ht'
    rcases List.mem_cons.mp ht' with rfl | ht'
    · refine ⟨by rw [awaits]; rfl, ?_⟩
      intro o ho
      exact ⟨stands, v, awaits, task o ho⟩
    · rw [List.mem_singleton] at ht'
      subst ht'
      exact task

/-- **One arrival keeps the invariant.** -/
theorem arrive {st : State} {p : Pointer} {objs : List HeapObj}
    {rest : Queue (Pointer × List HeapObj)} {c : Config} (h : Justified rules entries ⟨st, []⟩)
    (pop : st.work.toList = (p, objs) :: rest.toList) (arrives : Arrives st p objs rest c) :
    Justified rules entries c := by
  refine ⟨?_, ?_, ?_⟩
  · intro f hf
    rcases arrives.settles pop hf with hold | ⟨q, o, rfl, hq, ho⟩
    · exact h.settled f hold
    · exact .flow (h.settled (.flows p q) hq) (h.settled (.pointsTo p o) ho)
  · intro q s hs
    rw [arrives.waitingFor q] at hs
    exact h.waiting q s hs
  · intro t ht
    rw [arrives.agenda] at ht
    split at ht
    · exact absurd ht List.not_mem_nil
    · rw [List.mem_singleton] at ht
      subst ht
      intro o ho
      refine h.settled (.pointsTo p o) (Or.inr ⟨objs, ?_, (State.mem_fresh.mp ho).1⟩)
      rw [pop]
      exact List.mem_cons_self

theorem advance {c c' : Config} (h : Justified rules entries c) (step : Advances rules c c') :
    Justified rules entries c' := by
  cases step with
  | task done =>
    have := h.perform done
    exact ⟨this.settled, this.waiting, this.agenda⟩
  | arrival pop arrives =>
    have := h.arrive pop arrives
    exact ⟨this.settled, this.waiting, this.agenda⟩
  | idle empty => exact ⟨h.settled, h.waiting, h.agenda⟩

/-- The invariant holds at the start of an analysis. -/
theorem start : Justified rules entries ⟨{}, entries.map .root⟩ := by
  refine ⟨?_, ?_, ?_⟩
  · intro f hf
    cases f with
    | reached m => exact absurd hf List.not_mem_nil
    | called e => exact absurd hf List.not_mem_nil
    | flows p q => exact absurd hf List.not_mem_nil
    | pointsTo p o =>
      rcases hf with ho | ⟨objs, hmem, -⟩
      · exact absurd ho List.not_mem_nil
      · exact absurd hmem List.not_mem_nil
  · intro p s hs
    exact absurd hs List.not_mem_nil
  · intro t ht
    obtain ⟨m, hm, rfl⟩ := List.mem_map.mp ht
    exact hm

/-- Wherever a run from the start ends, the invariant holds. -/
theorem endsAt (rules : Rules) (entries : List Method) (n : Nat) :
    ∃ c, Justified rules entries c ∧
      EndsAt rules Rules.done c (rules.run Rules.done n ⟨{}, entries.map .root⟩) :=
  run_endsAt (fun hc step => hc.advance (advances_of_step step)) n start

end Justified

/-- What is recorded is settled. -/
theorem State.Holds.settles {st : State} : ∀ {f : Fact}, st.Holds f → st.Settles f := by
  intro f hf
  cases f with
  | reached m => exact hf
  | called e => exact hf
  | flows p q => exact hf
  | pointsTo p o => exact Or.inl hf

/-- What a finished analysis has found out is derivable. -/
theorem derivable_of_finished {n : Nat} {st : State} {f : Fact}
    (h : rules.analyze n {} entries = .finished st) (hf : st.Holds f) :
    rules.Derivable entries f := by
  obtain ⟨st', justified, -, e, rfl⟩ :=
    analyze_finished (fun hc step => hc.advance step) Justified.start h
  refine justified.settled f (State.Holds.settles ?_)
  cases f <;> exact hf

/-- **Precision of the pointer analysis.** For every code base, every choice of contexts and every
order in which sets of objects and of successors are gone through: whatever a finished analysis has
recorded — a reachable method, a call edge, a flow edge, or an object of a pointer — has a finite
derivation from the entries by the inference rules, and so it belongs to every set of facts that is
closed under them. -/
theorem analysis_precise (rules : Rules) (entries : List Method) (n : Nat) (st : State)
    (h : rules.analyze n {} entries = .finished st) (f : Fact) (hf : st.Holds f) :
    rules.Derivable entries f ∧
      ∀ known : Fact → Prop, rules.Closed entries known → known f := by
  have derivable := derivable_of_finished h hf
  exact ⟨derivable, fun known closed => derivable.mem_of_closed closed⟩

/-- In the sample program there is a derivation that the call in `main` gives the cell back. -/
theorem analysis_precise_sample :
    (∃ st, (Sample.rules (.callString 1)).analyze 60 {} [Sample.main] = .finished st ∧
      st.Holds (.pointsTo (.var [] (some (Sample.cellVar Sample.main "c"))) Sample.theCell)) ∧
    (Sample.rules (.callString 1)).Derivable [Sample.main]
      (.pointsTo (.var [] (some (Sample.cellVar Sample.main "c"))) Sample.theCell) :=
  ⟨⟨_, rfl, by decide⟩, (analysis_precise _ _ 60 _ rfl _ (by decide)).1⟩

end StaticAnalysis.PointsTo
