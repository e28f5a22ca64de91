import StaticAnalysis.Proofs.PointsTo.Reuse

/-!
# Heads of the worklist loop

The machine works off its agenda and then looks at the worklist. Between two entries of the worklist
nothing is on the agenda; these configurations are the heads of the loop. At the last of them the
worklist is empty.

* `Rules.headAfter?` — the state at the head of the loop, if an analysis is there after `n` steps.
* `holds_at_head` — what every step keeps holds at the heads; `registers_at_head`, `pursued_at_head`
  and `justified_at_head` say so of the invariants of an analysis.
* `head_of_analyze` — a finished analysis has left the loop at its last head.
* `Advances.grows`, `head_grows` — **from one head to another nothing is lost.**
-/

namespace StaticAnalysis.PointsTo

/-- The state at the head of the worklist loop, if the analysis is there after `n` steps or has come
to rest before. -/
def Rules.headAfter? (rules : Rules) (st : State) (entries : List Method) (n : Nat) :
    Option State :=
  match rules.run Rules.done n ⟨st, entries.map .root⟩ with
  | .finished st => some st
  | .unfinished c => if c.agenda.isEmpty then some c.state else none
  | .failed _ _ => none

section Heads

variable {rules : Rules} {entries : List Method} {st₀ st st' : State} {n : Nat}

/-- At a head a run has ended with an empty agenda. -/
theorem run_of_head (h : rules.headAfter? st₀ entries n = some st) :
    rules.run Rules.done n ⟨st₀, entries.map .root⟩ = .finished st ∨
      rules.run Rules.done n ⟨st₀, entries.map .root⟩ = .unfinished ⟨st, []⟩ := by
  rw [Rules.headAfter?] at h
  split at h
  · next run => exact Or.inl (run.trans (congrArg Outcome.finished (Option.some.inj h)))
  · next c run =>
    obtain ⟨st', agenda⟩ := c
    cases agenda with
    | nil =>
      cases h
      exact Or.inr run
    | cons t rest => cases h
  · cases h

/-- What holds at the start and is kept by every step holds at the heads. -/
theorem holds_at_head {P : Config → Prop}
    (kept : ∀ {c c' : Config}, P c → Advances rules c c' → P c')
    (start : P ⟨st₀, entries.map .root⟩) (h : rules.headAfter? st₀ entries n = some st) :
    P ⟨st, []⟩ := by
  have ended : ∃ c, P c ∧
      EndsAt rules Rules.done c (rules.run Rules.done n ⟨st₀, entries.map .root⟩) :=
    run_endsAt (fun hc step => kept hc (advances_of_step step)) n start
  obtain ⟨c, hc, ends⟩ := ended
  rcases run_of_head h with run | run
  · rw [run] at ends
    cases ends with
    | finished rest =>
      have empty : c.agenda = [] := by
        simp only [Rules.done, Bool.and_eq_true, List.isEmpty_iff] at rest
        exact rest.1
      exact empty ▸ hc
  · rw [run] at ends
    cases ends with
    | unfinished => exact hc

/-- A finished analysis has left the loop at a head; it has added a last note to the history. -/
theorem head_of_analyze (h : rules.analyze n st₀ entries = .finished st) :
    ∃ st', rules.headAfter? st₀ entries n = some st' ∧ ∃ e, st = st'.record e := by
  obtain ⟨st', run, note⟩ := run_of_analyze h
  refine ⟨st', ?_, note⟩
  rw [Rules.headAfter?, run]

/-! ### What is known at the heads -/

theorem registers_at_head (h : rules.headAfter? {} entries n = some st) :
    Registers entries ⟨st, []⟩ := by
  have fresh : AtRest rules [] {} := atRest_empty
  exact holds_at_head (fun kept step => kept.advance step) (fresh.registers_start entries) h

theorem pursued_at_head (h : rules.headAfter? {} entries n = some st) :
    Pursued rules entries ⟨st, []⟩ :=
  holds_at_head (fun kept step => kept.advance step) .start h

theorem justified_at_head (h : rules.headAfter? {} entries n = some st) :
    Justified rules entries ⟨st, []⟩ :=
  holds_at_head (fun kept step => kept.advance step) .start h

/-! ### From head to head -/

/-- A run goes on from where a shorter one stopped for want of steps. -/
theorem run_add (atRest : Config → Bool) (n k : Nat) (c : Config) :
    rules.run atRest (n + k) c =
      match rules.run atRest n c with
      | .unfinished c' => rules.run atRest k c'
      | ended => ended := by
  induction n generalizing c with
  | zero =>
    rw [Nat.zero_add, Rules.run.eq_def rules atRest 0 c]
    by_cases rest : atRest c = true
    · cases k <;> simp [Rules.run, rest]
    · simp [rest]
  | succ n ih =>
    rw [Nat.succ_add, Rules.run, Rules.run]
    by_cases rest : atRest c = true
    · simp [rest]
    · rw [if_neg rest, if_neg rest]
      cases rules.step c with
      | error f => rfl
      | ok c' => exact ih c'

/-- **A step loses nothing.** -/
theorem Advances.grows {c c' : Config} (step : Advances rules c c') :
    State.Grows c.state c'.state := by
  -- the clock is not among the views
  have tick : ∀ {st : State} {c : Config}, State.Grows st c.state →
      State.Grows st (Rules.tick c).state :=
    fun h => ⟨h.objectsOf, h.due, h.successors, h.reachable, h.edges, h.waitingFor⟩
  cases step with
  | task done => exact tick done.discharges.grows
  | arrival pop arrives => exact tick (arrives.grows pop)
  | idle empty => exact tick (.refl _)

theorem run_grows (atRest : Config → Bool) (n : Nat) (c : Config) :
    State.Grows c.state (rules.run atRest n c).state := by
  have ended : ∃ c', State.Grows c.state c'.state ∧ EndsAt rules atRest c' (rules.run atRest n c) :=
    run_endsAt (fun grown step => grown.trans (advances_of_step step).grows) n (.refl c.state)
  obtain ⟨c', grows, ends⟩ := ended
  rw [ends.state]
  exact grows

/-- **From one head to a later one nothing is lost.** -/
theorem head_grows {n' : Nat} (later : n ≤ n') (h : rules.headAfter? st₀ entries n = some st)
    (h' : rules.headAfter? st₀ entries n' = some st') : State.Grows st st' := by
  have state : (rules.run Rules.done n' ⟨st₀, entries.map .root⟩).state = st' := by
    rcases run_of_head h' with run | run <;> rw [run] <;> rfl
  obtain ⟨k, rfl⟩ := Nat.exists_eq_add_of_le later
  rw [run_add] at state
  rcases run_of_head h with run | run
  · rw [run] at state
    exact state ▸ .refl st
  · rw [run] at state
    exact state ▸ run_grows Rules.done k ⟨st, []⟩

end Heads

end StaticAnalysis.PointsTo
