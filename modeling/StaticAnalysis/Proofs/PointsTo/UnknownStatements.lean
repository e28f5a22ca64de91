import StaticAnalysis.Proofs.PointsTo.LoopHeads

/-!
# Statements that are not known

An analysis fails where it has to execute a statement that it has no rule for. Which methods it
reaches depends on all that it finds out, so the program is compared with the one in which such
statements do nothing. The report about a statement shows its text, and a statement whose kind does
not tell how it is written has none (`Stmt.refusal`).

A method is entered once, also if its statements could not all be executed. So an analysis that is
repeated after a failure gets past the method at which it failed.

* `CodeBase.silenced` — the code in which statements that are not known do nothing.
* `Rules.Alike` — two analyses that differ at most in statements that give nothing; they can derive
  the same facts (`Rules.Alike.derivable_iff`).
* `AllKnown` — the invariant of a run that has not failed: statements of reachable methods are
  known, apart from those that are still to be executed.
* `Rules.LeftBehind` — the states that failed analyses leave behind.
* `Entering` — the invariant of a run from such a state: statements that are still to be executed
  stand in methods that were not reachable at its start.
* `unknown_of_failed` — **an analysis fails at an unknown statement of a method that it has just
  found**, whatever failures came before it; so `Rules.LeftBehind.finishes_eventually` says that
  there is a result in the end.
* `StmtKind.deferred` — the kinds of statements that wait for objects; `resume_of_deferred` says
  that all of them can be applied to objects.

**Main statement** (`fails_iff_unknown_reached`): an analysis fails if and only if the one of the
silenced code reaches a method with a statement that is not known; otherwise both find out the same.
-/

namespace StaticAnalysis

/-! ### Code without unknown statements -/

/-- A statement that is not known does nothing instead. -/
def Stmt.silenced (s : Stmt) : Stmt :=
  match s.op with
  | .other _ => { s with op := .nop }
  | _ => s

def Body.silenced (b : Body) : Body := { b with stmts := b.stmts.map Stmt.silenced }

/-- The code in which statements that are not known do nothing. -/
def CodeBase.silenced (code : CodeBase) : CodeBase :=
  { code with bodies := ⟨code.bodies.entries.map fun e => (e.1, e.2.silenced)⟩ }

/-- Whether a statement does nothing or is not known. -/
def Stmt.isIdle (s : Stmt) : Bool :=
  match s.op with
  | .nop | .other _ => true
  | _ => false

namespace Stmt

variable (s : Stmt)

theorem silenced_cases : (∃ what, s.op = .other what ∧ s.silenced = { s with op := .nop }) ∨
    s.isUnknown = false ∧ s.silenced = s := by
  unfold silenced isUnknown
  cases s.op <;> simp [Op.kind?]

theorem isUnknown_silenced : s.silenced.isUnknown = false := by
  rcases s.silenced_cases with ⟨what, -, silenced⟩ | ⟨known, silenced⟩
  · rw [silenced]
    rfl
  · rw [silenced, known]

theorem isIdle_silenced : s.silenced.isIdle = s.isIdle := by
  rcases s.silenced_cases with ⟨what, other, silenced⟩ | ⟨-, silenced⟩
  · rw [silenced, isIdle, isIdle, other]
  · rw [silenced]

theorem returned?_silenced : s.silenced.returned? = s.returned? := by
  rcases s.silenced_cases with ⟨what, other, silenced⟩ | ⟨-, silenced⟩
  · rw [silenced, returned?, returned?, other]
  · rw [silenced]

theorem isOpen_silenced : s.silenced.isOpen = s.isOpen := by
  rcases s.silenced_cases with ⟨what, other, silenced⟩ | ⟨-, silenced⟩
  · rw [silenced, isOpen, isOpen, other]
  · rw [silenced]

theorem silenced_of_not_isIdle {s : Stmt} (h : s.isIdle = false) : s.silenced = s := by
  rcases s.silenced_cases with ⟨what, other, -⟩ | ⟨-, silenced⟩
  · rw [isIdle, other] at h
    contradiction
  · exact silenced

end Stmt

theorem Table.find_map {κ α β : Type} [DecidableEq κ] (f : α → β) (k : κ) (es : List (κ × α)) :
    Table.find k (es.map fun e => (e.1, f e.2)) = (Table.find k es).map f := by
  induction es with
  | nil => rfl
  | cons e es ih =>
    obtain ⟨k', a⟩ := e
    show (if k' = k then some (f a) else Table.find k (es.map fun e => (e.1, f e.2)))
      = (if k' = k then some a else Table.find k es).map f
    by_cases h : k' = k
    · rw [if_pos h, if_pos h]
      rfl
    · rw [if_neg h, if_neg h, ih]

namespace CodeBase

variable (code : CodeBase)

theorem body_silenced (m : Method) : code.silenced.body m = (code.body m).silenced := by
  have found : code.silenced.bodies.get? m = (code.bodies.get? m).map Body.silenced :=
    Table.find_map Body.silenced m code.bodies.entries
  rw [body, body, Table.getD, Table.getD, found]
  cases code.bodies.get? m <;> rfl

theorem mem_stmts_silenced {m : Method} {s : Stmt} :
    s ∈ (code.silenced.body m).stmts ↔ ∃ t ∈ (code.body m).stmts, t.silenced = s := by
  rw [body_silenced]
  exact List.mem_map

/-- The other statements are the same. -/
theorem mem_stmts_silenced_of_not_isIdle {m : Method} {s : Stmt} (h : s.isIdle = false) :
    s ∈ (code.silenced.body m).stmts ↔ s ∈ (code.body m).stmts := by
  rw [mem_stmts_silenced]
  constructor
  · intro hs
    obtain ⟨t, ht, rfl⟩ := hs
    rw [Stmt.isIdle_silenced] at h
    rw [Stmt.silenced_of_not_isIdle h]
    exact ht
  · intro hs
    exact ⟨s, hs, Stmt.silenced_of_not_isIdle h⟩

theorem returnVars_silenced (m : Method) :
    (code.silenced.body m).returnVars = (code.body m).returnVars := by
  rw [body_silenced, Body.returnVars, Body.returnVars, Body.silenced, List.filterMap_map]
  congr 1
  funext s
  exact s.returned?_silenced

end CodeBase

namespace PointsTo

/-! ### Analyses that differ in idle statements -/

/-- Two analyses choose contexts and targets alike, and their code has the same statements, apart
from those that do nothing or are not known. -/
structure Rules.Alike (rules rules' : Rules) : Prop where
  selector : rules'.selector = rules.selector
  resolveCallee : ∀ type call,
    rules'.code.resolveCallee type call = rules.code.resolveCallee type call
  stmts : ∀ m s, s.isIdle = false →
    (s ∈ (rules'.code.body m).stmts ↔ s ∈ (rules.code.body m).stmts)
  returnVars : ∀ m, (rules'.code.body m).returnVars = (rules.code.body m).returnVars

theorem Rules.Gives.isIdle {rules : Rules} {s : CtxStmt} {f : Fact} (h : rules.Gives s f) :
    s.2.isIdle = false := by
  cases h with
  | alloc hop => simp [Stmt.isIdle, hop]
  | copy hop ref => simp [Stmt.isIdle, hop]
  | loadStatic hop ref static => simp [Stmt.isIdle, hop]
  | storeStatic hop ref static => simp [Stmt.isIdle, hop]
  | call hop static target chosen => simp [Stmt.isIdle, hop]

theorem Rules.GivesOn.isIdle {rules : Rules} {s : CtxStmt} {o : HeapObj} {f : Fact}
    (h : rules.GivesOn s o f) : s.2.isIdle = false := by
  cases h with
  | load hop => simp [Stmt.isIdle, hop]
  | store hop => simp [Stmt.isIdle, hop]
  | loadElement hop => simp [Stmt.isIdle, hop]
  | storeElement hop => simp [Stmt.isIdle, hop]
  | call hop target chosen => simp [Stmt.isIdle, hop]
  | receiver hop target chosen this => simp [Stmt.isIdle, hop]

theorem Rules.alike_silenced {rules rules₀ : Rules} (code : rules₀.code = rules.code.silenced)
    (selector : rules₀.selector = rules.selector) : rules.Alike rules₀ := by
  refine ⟨selector, ?_, ?_, ?_⟩
  · rw [code]
    exact CodeBase.resolveCallee_of_classes rfl
  · intro m s idle
    rw [code]
    exact rules.code.mem_stmts_silenced_of_not_isIdle idle
  · rw [code]
    exact rules.code.returnVars_silenced

namespace Rules.Alike

variable {rules rules' : Rules} (h : rules.Alike rules') {entries : List Method}

include h

theorem symm : rules'.Alike rules :=
  ⟨h.selector.symm, fun type call => (h.resolveCallee type call).symm,
    fun m s idle => (h.stmts m s idle).symm, fun m => (h.returnVars m).symm⟩

theorem gives {s : CtxStmt} {f : Fact} (hf : rules.Gives s f) : rules'.Gives s f := by
  rw [gives_iff] at hf ⊢
  unfold newObj at hf ⊢
  simp only [h.selector, h.resolveCallee]
  exact hf

theorem givesOn {s : CtxStmt} {o : HeapObj} {f : Fact} (hf : rules.GivesOn s o f) :
    rules'.GivesOn s o f := by
  rw [givesOn_iff] at hf ⊢
  simp only [h.selector, h.resolveCallee]
  exact hf

theorem wires {e : CtxEdge} {f : Fact} (hf : rules.Wires e f) : rules'.Wires e f := by
  cases hf with
  | argument hop pair ref => exact .argument hop pair ref
  | result hop result ref returned =>
    exact .result hop result ref (by rw [h.returnVars]; exact returned)

/-- Both make the same inferences: no premise and no conclusion is about an idle statement. -/
theorem infers {premises : List Fact} {f : Fact} (step : rules.Infers entries premises f) :
    rules'.Infers entries premises f := by
  cases step with
  | entry hm => exact .entry hm
  | @stmt m s f mem gives => exact .stmt ((h.stmts m.2 s gives.isIdle).mpr mem) (h.gives gives)
  | @onObject m s v o f mem awaits gives =>
    exact .onObject ((h.stmts m.2 s gives.isIdle).mpr mem) awaits (h.givesOn gives)
  | callee => exact .callee
  | wiring gives => exact .wiring (h.wires gives)
  | flow => exact .flow

theorem derivable {f : Fact} (hf : rules.Derivable entries f) : rules'.Derivable entries f := by
  induction hf with
  | infer step known ih => exact .infer (h.infers step) ih

theorem derivable_iff (f : Fact) : rules.Derivable entries f ↔ rules'.Derivable entries f :=
  ⟨h.derivable, h.symm.derivable⟩

/-- So the result of one of them tells what the other one can derive. -/
theorem holds_iff {n : Nat} {st : State} (run : rules'.analyze n {} entries = .finished st)
    (f : Fact) : st.Holds f ↔ rules.Derivable entries f := by
  rw [(atRest_of_finished run).holds_iff, h.derivable_iff]

end Rules.Alike

/-! ### Unknown statements of reachable methods -/

/-- A method that is reachable in a state has a statement that is not known. -/
def State.ReachesUnknown (st : State) (code : CodeBase) : Prop :=
  ∃ m ∈ st.graph.reachable, ∃ s ∈ (code.body m.2).stmts, s.isUnknown = true

instance State.decidableReachesUnknown (st : State) (code : CodeBase) :
    Decidable (st.ReachesUnknown code) :=
  inferInstanceAs
    (Decidable (∃ m ∈ st.graph.reachable, ∃ s ∈ (code.body m.2).stmts, s.isUnknown = true))

/-- The statements of reachable methods are known, apart from those that are still to be
executed. -/
def AllKnown (rules : Rules) (c : Config) : Prop :=
  ∀ m ∈ c.state.graph.reachable, ∀ s ∈ (rules.code.body m.2).stmts,
    s.isUnknown = false ∨ .exec (m.1, s) ∈ c.agenda

section Analyses

variable {rules rules₀ : Rules} {entries : List Method} {n : Nat} {st st' st₀ : State}

/-- **A step that succeeds keeps this**: it has not executed a statement that is not known. -/
theorem AllKnown.step {c c' : Config} (h : AllKnown rules c) (step : rules.step c = .ok c') :
    AllKnown rules c' := by
  obtain ⟨st, agenda⟩ := c
  cases agenda with
  | nil =>
    intro m hm s hs
    have reached : m ∈ st.graph.reachable := by
      cases advances_of_step step with
      | arrival pop arrives =>
        rw [← arrives.graph]
        exact hm
      | idle empty => exact hm
    exact Or.inl ((h m reached s hs).resolve_right List.not_mem_nil)
  | cons t rest =>
    obtain ⟨r, hperform, rfl⟩ := perform_of_step step
    intro m hm s hs
    rcases (performs_of_perform hperform).discharges.reachable m hm with old | new
    · rcases h m old s hs with known | task
      · exact Or.inl known
      · rcases List.mem_cons.mp task with rfl | later
        · -- the statement has just been executed
          refine Or.inl (Bool.eq_false_iff.mpr ?_)
          intro unknown
          obtain ⟨what, other⟩ := Stmt.isUnknown_iff.mp unknown
          simp [Rules.perform, Rules.exec, other] at hperform
        · exact Or.inr (List.mem_append_right _ later)
    · exact Or.inr (List.mem_append_left _ (new s hs))

/-- A finished analysis has reached known statements only. -/
theorem not_reachesUnknown_of_finished (h : rules.analyze n {} entries = .finished st) :
    ¬ st.ReachesUnknown rules.code := by
  have start : AllKnown rules ⟨{}, entries.map .root⟩ := fun m hm => absurd hm List.not_mem_nil
  obtain ⟨st', known, -, e, rfl⟩ := analyze_endsAt AllKnown.step start h
  intro reaches
  obtain ⟨m, hm, s, hs, unknown⟩ := reaches
  rcases known m hm s hs with known | task
  · rw [known] at unknown
    contradiction
  · exact absurd task List.not_mem_nil

/-- The silenced code has a result. -/
theorem silenced_finishes (code : rules₀.code = rules.code.silenced)
    (decides : ∀ k, rules₀.selector ≠ .undecided k)
    (filled : ∀ m, ∀ s ∈ (rules.code.body m).stmts, s.isOpen = false) :
    ∃ n st₀, ∀ k, n ≤ k → rules₀.analyze k {} entries = .finished st₀ := by
  refine analyze_finishes rules₀ entries decides ?_
  rw [code]
  intro m s hs
  obtain ⟨t, ht, rfl⟩ := rules.code.mem_stmts_silenced.mp hs
  refine ⟨t.isUnknown_silenced, ?_⟩
  rw [t.isOpen_silenced]
  exact filled m t ht

/-! ### After a failure -/

/-- The states that failed analyses with the given entries leave behind. Each of them starts from
the state that the one before has left, the first one from nothing. -/
inductive Rules.LeftBehind (rules : Rules) (entries : List Method) : State → Prop where
  | fresh : LeftBehind rules entries {}
  | failed {st st' : State} {n : Nat} {f : Fault} (before : LeftBehind rules entries st)
      (h : rules.analyze n st entries = .failed st' f) : LeftBehind rules entries st'

/-- What is known stays justified when the tasks are given up and the entries taken up again. -/
theorem Justified.restart {c : Config} (h : Justified rules entries c) :
    Justified rules entries ⟨c.state, entries.map .root⟩ := by
  refine ⟨h.settled, h.waiting, ?_⟩
  intro t ht
  obtain ⟨m, hm, rfl⟩ := List.mem_map.mp ht
  exact hm

theorem Rules.LeftBehind.justified (h : rules.LeftBehind entries st) :
    Justified rules entries ⟨st, entries.map .root⟩ := by
  induction h with
  | fresh => exact .start
  | failed before failed ih =>
    obtain ⟨c, justified, rfl, -⟩ :=
      analyze_failed (fun hc step => Justified.advance hc (advances_of_step step)) ih failed
    exact justified.restart

/-- Tasks begin to execute statements only of methods that were not reachable before. -/
theorem Performs.exec_mem {t : Task} {next : List Task} (done : Performs rules st t st' next)
    {s : CtxStmt} (h : .exec s ∈ next) :
    ∃ m ∈ st'.graph.reachable, m ∉ st.graph.reachable ∧ s.2 ∈ (rules.code.body m.2).stmts := by
  cases done with
  | @enter m new =>
    obtain ⟨stmt, mem, task⟩ := List.mem_map.mp h
    cases task
    exact ⟨m, List.mem_append_right _ List.mem_cons_self, new, mem⟩
  | @hold s' v awaits gives =>
    rw [tasks_hold] at h
    split at h <;> simp at h
  | _ => simp at h

/-- A run from the state `old`: nothing reachable is lost, and the statements that are still to be
executed stand in methods that were not reachable in `old`. -/
structure Entering (rules : Rules) (old : State) (c : Config) : Prop where
  kept : old.graph.reachable ⊆ c.state.graph.reachable
  exec : ∀ s, .exec s ∈ c.agenda → ∃ m ∈ c.state.graph.reachable, m ∉ old.graph.reachable ∧
    s.2 ∈ (rules.code.body m.2).stmts

theorem Entering.start (old : State) (entries : List Method) :
    Entering rules old ⟨old, entries.map .root⟩ := by
  refine ⟨List.Subset.refl _, ?_⟩
  intro s hs
  obtain ⟨m, -, task⟩ := List.mem_map.mp hs
  cases task

/-- **A step keeps this.** -/
theorem Entering.advance {old : State} {c c' : Config} (h : Entering rules old c)
    (step : Advances rules c c') : Entering rules old c' := by
  have grows : c.state.graph.reachable ⊆ c'.state.graph.reachable := fun m => step.grows.reachable m
  refine ⟨fun m hm => grows (h.kept hm), ?_⟩
  intro s hs
  cases step with
  | task done =>
    rcases List.mem_append.mp hs with begun | later
    · obtain ⟨m, hm, new, mem⟩ := done.exec_mem begun
      exact ⟨m, hm, fun known => new (h.kept known), mem⟩
    · obtain ⟨m, hm, new, mem⟩ := h.exec s (List.mem_cons_of_mem _ later)
      exact ⟨m, grows hm, new, mem⟩
  | @arrival st p objs rest c pop arrives =>
    have agenda : .exec s ∈ c.agenda := hs
    rw [arrives.agenda] at agenda
    split at agenda <;> simp at agenda
  | idle empty => exact absurd hs List.not_mem_nil

/-- **An analysis in which no operand is left open fails before an unknown statement of a method
that it has just found**, if it fails at all. -/
theorem unknown_of_failed (decides : ∀ k, rules.selector ≠ .undecided k)
    (filled : ∀ m, ∀ s ∈ (rules.code.body m).stmts, s.isOpen = false)
    (left : rules.LeftBehind entries st) {f : Fault}
    (h : rules.analyze n st entries = .failed st' f) :
    st.graph.reachable ⊆ st'.graph.reachable ∧
    ∃ m ∈ st'.graph.reachable, m ∉ st.graph.reachable ∧ rules.Derivable entries (.reached m) ∧
      ∃ s ∈ (rules.code.body m.2).stmts, s.isUnknown = true ∧ f = s.refusal := by
  let Inv (c : Config) : Prop := Justified rules entries c ∧ Entering rules st c
  have kept : ∀ {c c' : Config}, Inv c → rules.step c = .ok c' → Inv c' :=
    fun hc step => ⟨hc.1.advance (advances_of_step step), hc.2.advance (advances_of_step step)⟩
  have start : Inv ⟨st, entries.map .root⟩ := ⟨left.justified, .start st entries⟩
  obtain ⟨c, ⟨justified, entering⟩, rfl, fault⟩ := analyze_failed kept start h
  obtain ⟨s, task, why⟩ := exec_of_fault decides justified fault
  obtain ⟨m, hm, new, mem⟩ := entering.exec s task
  refine ⟨entering.kept, m, hm, new, justified.settled (.reached m) hm, s.2, mem, ?_⟩
  rcases why with unknown | ⟨gap, -⟩
  · exact unknown
  · rw [filled m.2 s.2 mem] at gap
    contradiction

/-- What a repeated analysis has found out in the end can be derived. -/
theorem Rules.LeftBehind.derivable (left : rules.LeftBehind entries st)
    (h : rules.analyze n st entries = .finished st') {f : Fact} (hf : st'.Holds f) :
    rules.Derivable entries f := by
  obtain ⟨st'', justified, -, e, rfl⟩ := analyze_finished Justified.advance left.justified h
  refine justified.settled f (State.Holds.settles ?_)
  cases f <;> exact hf

/-- **A repeated analysis has a result** once all methods with unknown statements are known to be
reachable. -/
theorem Rules.LeftBehind.finishes (left : rules.LeftBehind entries st)
    (decides : ∀ k, rules.selector ≠ .undecided k)
    (filled : ∀ m, ∀ s ∈ (rules.code.body m).stmts, s.isOpen = false)
    (entered : ∀ m, rules.Derivable entries (.reached m) →
      ∀ s ∈ (rules.code.body m.2).stmts, s.isUnknown = true → m ∈ st.graph.reachable) :
    ∃ n st', ∀ k, n ≤ k → rules.analyze k st entries = .finished st' := by
  obtain ⟨n, o, ended, run⟩ := analyze_ends_from left.justified
  cases ended with
  | finished st' => exact ⟨n, st', run⟩
  | failed justified fault =>
    obtain ⟨-, m, -, new, derivable, s, mem, unknown, -⟩ :=
      unknown_of_failed decides filled left (run n (Nat.le_refl n))
    exact absurd (entered m derivable s mem unknown) new

/-- **After finitely many failures there is a result**: each of them has found one more of the
methods `todo` that have unknown statements. -/
theorem Rules.LeftBehind.finishes_eventually (decides : ∀ k, rules.selector ≠ .undecided k)
    (filled : ∀ m, ∀ s ∈ (rules.code.body m).stmts, s.isOpen = false) (todo : List CtxMethod)
    (left : rules.LeftBehind entries st)
    (pending : ∀ m, rules.Derivable entries (.reached m) → ∀ s ∈ (rules.code.body m.2).stmts,
      s.isUnknown = true → m ∈ st.graph.reachable ∨ m ∈ todo) :
    ∃ st', rules.LeftBehind entries st' ∧
      ∃ n st'', ∀ k, n ≤ k → rules.analyze k st' entries = .finished st'' := by
  induction size : todo.length generalizing st todo with
  | zero =>
    obtain rfl := List.length_eq_zero_iff.mp size
    refine ⟨st, left, left.finishes decides filled ?_⟩
    intro m derivable s mem unknown
    exact (pending m derivable s mem unknown).resolve_right List.not_mem_nil
  | succ k ih =>
    obtain ⟨n, o, ended, run⟩ := analyze_ends_from left.justified
    cases ended with
    | finished st' => exact ⟨st, left, n, st', run⟩
    | @failed c f justified fault =>
      have failed := run n (Nat.le_refl n)
      obtain ⟨kept, m, found, new, derivable, s, mem, unknown, -⟩ :=
        unknown_of_failed decides filled left failed
      have listed : m ∈ todo := (pending m derivable s mem unknown).resolve_left new
      refine ih (todo.erase m) (.failed left failed) ?_ ?_
      · intro m' derivable' s' mem' unknown'
        by_cases same : m' = m
        · exact Or.inl (same ▸ found)
        · rcases pending m' derivable' s' mem' unknown' with old | waiting
          · exact Or.inl (kept old)
          · exact Or.inr ((List.mem_erase_of_ne same).mpr waiting)
      · rw [List.length_erase_of_mem listed, size]
        rfl

/-! ### Compared with a result -/

variable (derivable : ∀ f, st₀.Holds f ↔ rules.Derivable entries f)

include derivable

/-- If a state knows all that can be derived, it knows where an analysis fails. -/
theorem reaches_of_failed (decides : ∀ k, rules.selector ≠ .undecided k)
    (filled : ∀ m, ∀ s ∈ (rules.code.body m).stmts, s.isOpen = false)
    (left : rules.LeftBehind entries st) (n : Nat) (st' : State) (f : Fault)
    (h : rules.analyze n st entries = .failed st' f) :
    ∃ m ∈ st₀.graph.reachable, m ∉ st.graph.reachable ∧ m ∈ st'.graph.reachable ∧
      ∃ s ∈ (rules.code.body m.2).stmts, s.isUnknown = true ∧ f = s.refusal := by
  obtain ⟨-, m, found, new, reached, s, hs⟩ := unknown_of_failed decides filled left h
  exact ⟨m, (derivable (.reached m)).mpr reached, new, found, s, hs⟩

/-- **An unknown statement that can be reached makes an analysis fail.** -/
theorem fails_of_reachesUnknown (reaches : st₀.ReachesUnknown rules.code) :
    ∃ n st f, rules.analyze n {} entries = .failed st f := by
  obtain ⟨n, o, ended, run⟩ := analyze_ends rules entries
  have run := run n (Nat.le_refl n)
  cases ended with
  | finished st =>
    obtain ⟨m, hm, s, hs⟩ := reaches
    have hm' : m ∈ st.graph.reachable :=
      ((atRest_of_finished run).holds_iff (.reached m)).mpr ((derivable (.reached m)).mp hm)
    exact absurd ⟨m, hm', s, hs⟩ (not_reachesUnknown_of_finished run)
  | failed justified fault => exact ⟨n, _, _, run⟩

end Analyses

/-! ### Statements that wait -/

end PointsTo

/-- The kinds of statements that wait for objects. -/
def StmtKind.deferred : List StmtKind := [loadField, storeField, loadElement, storeElement, call]

theorem Stmt.kind_of_awaited {s : Stmt} {v : Operand} (h : s.awaited? = some v) :
    ∃ kind ∈ StmtKind.deferred, s.op.kind? = some kind := by
  cases hop : s.op with
  | loadField target base field => exact ⟨.loadField, by decide, rfl⟩
  | storeField base field source => exact ⟨.storeField, by decide, rfl⟩
  | loadElement target base => exact ⟨.loadElement, by decide, rfl⟩
  | storeElement base source => exact ⟨.storeElement, by decide, rfl⟩
  | call call => exact ⟨.call, by decide, rfl⟩
  | _ => simp [awaited?, hop] at h

namespace PointsTo

/-- **All kinds of statements that wait can be applied to objects.** -/
theorem resume_of_deferred {rules : Rules} {s : CtxStmt} {kind : StmtKind}
    (deferred : kind ∈ StmtKind.deferred) (h : s.2.op.kind? = some kind) (st : State)
    (objs : List HeapObj) : ∃ r, rules.resume st s.1 s.2 objs = .ok r := by
  cases hop : s.2.op with
  | loadField target base field => simp [Rules.resume, hop]
  | storeField base field source => simp [Rules.resume, hop]
  | loadElement target base => simp [Rules.resume, hop]
  | storeElement base source => simp [Rules.resume, hop]
  | call call => simp [Rules.resume, hop]
  | other =>
    rw [hop] at h
    contradiction
  | _ =>
    rw [hop] at h
    cases h
    exact absurd deferred (by decide)

/-- Whatever waits at some point of an analysis is of such a kind. -/
theorem deferred_of_waiting {rules : Rules} {entries : List Method} {n : Nat} {p : Pointer}
    {s : CtxStmt} (h : s ∈ (rules.stateAfter {} entries n).waitingFor p) :
    ∃ kind ∈ StmtKind.deferred, s.2.op.kind? = some kind := by
  obtain ⟨c, justified, ends⟩ := Justified.endsAt rules entries n
  rw [Rules.stateAfter, ends.state] at h
  obtain ⟨-, v, awaits, -⟩ := justified.waiting p s h
  exact Stmt.kind_of_awaited awaits

/-! ### The statement about unknown statements -/

/-- **An analysis fails exactly if it reaches an unknown statement.** Let no statement leave an
operand open, and compare with an analysis of the silenced code, whose orders of going through sets
may be others.

* The analysis of the silenced code has a result.
* An analysis of the code itself fails if and only if that one reaches a method that has an unknown
  statement. If such statements have texts, then it fails with the report about one of them.
* Otherwise it has a result, with the same facts and entries.
* An analysis that is repeated after failures fails only before an unknown statement of a method
  that was not found until then. It says which one, or that its text is missing. If there is no
  such method, it has a result, where some facts may be missing.
* After finitely many failures there is a result.
* Whatever waits for objects, at any point, is of a kind that can be applied to objects.
* If all statements are known, then no analysis fails. -/
theorem fails_iff_unknown_reached (rules rules₀ : Rules) (entries : List Method)
    (code : rules₀.code = rules.code.silenced) (selector : rules₀.selector = rules.selector)
    (decides : ∀ k, rules.selector ≠ .undecided k)
    (filled : ∀ m, ∀ s ∈ (rules.code.body m).stmts, s.isOpen = false) :
    (∃ n st₀, ∀ k, n ≤ k → rules₀.analyze k {} entries = .finished st₀) ∧
    (∀ n₀ st₀, rules₀.analyze n₀ {} entries = .finished st₀ →
      ((∃ n st f, rules.analyze n {} entries = .failed st f) ↔ st₀.ReachesUnknown rules.code) ∧
      ((∀ m ∈ st₀.graph.reachable, ∀ s ∈ (rules.code.body m.2).stmts,
          s.isUnknown = true → s.text? ≠ none) →
        ((∃ n st text, rules.analyze n {} entries = .failed st (.unknownStatement text)) ↔
          st₀.ReachesUnknown rules.code)) ∧
      (¬ st₀.ReachesUnknown rules.code →
        ∃ n st, ∀ k, n ≤ k → rules.analyze k {} entries = .finished st) ∧
      (∀ n st, rules.analyze n {} entries = .finished st →
        (∀ f, st.Holds f ↔ st₀.Holds f) ∧ ∀ m, m ∈ st.graph.entries ↔ m ∈ st₀.graph.entries) ∧
      (∀ st, rules.LeftBehind entries st →
        (∀ n st' f, rules.analyze n st entries = .failed st' f →
          ∃ m ∈ st₀.graph.reachable, m ∉ st.graph.reachable ∧ m ∈ st'.graph.reachable ∧
            ∃ s ∈ (rules.code.body m.2).stmts, s.isUnknown = true ∧ f = s.refusal) ∧
        ((∀ m ∈ st₀.graph.reachable, ∀ s ∈ (rules.code.body m.2).stmts,
            s.isUnknown = true → m ∈ st.graph.reachable) →
          ∃ n st', ∀ k, n ≤ k → rules.analyze k st entries = .finished st') ∧
        ∀ n st', rules.analyze n st entries = .finished st' → ∀ f, st'.Holds f → st₀.Holds f) ∧
      ∃ st, rules.LeftBehind entries st ∧
        ∃ n st', ∀ k, n ≤ k → rules.analyze k st entries = .finished st') ∧
    (∀ n p s, s ∈ (rules.stateAfter {} entries n).waitingFor p →
      ∃ kind ∈ StmtKind.deferred, s.2.op.kind? = some kind ∧
        ∀ st objs, ∃ r, rules.resume st s.1 s.2 objs = .ok r) ∧
    ((∀ m, ∀ s ∈ (rules.code.body m).stmts, s.isUnknown = false) →
      ∀ n st f, rules.analyze n {} entries ≠ .failed st f) := by
  have alike : rules.Alike rules₀ := Rules.alike_silenced code selector
  have decides₀ : ∀ k, rules₀.selector ≠ .undecided k := by
    rw [selector]
    exact decides
  refine ⟨silenced_finishes code decides₀ filled, ?_, ?_, ?_⟩
  · intro n₀ st₀ run₀
    have derivable : ∀ f, st₀.Holds f ↔ rules.Derivable entries f := alike.holds_iff run₀
    have reaches : ∀ {n st f}, rules.analyze n {} entries = .failed st f →
        st₀.ReachesUnknown rules.code := by
      intro n st f failed
      obtain ⟨m, hm, -, -, s, mem, hs, -⟩ :=
        reaches_of_failed derivable decides filled .fresh n st f failed
      exact ⟨m, hm, s, mem, hs⟩
    refine ⟨⟨fun ⟨n, st, f, failed⟩ => reaches failed, fails_of_reachesUnknown derivable⟩,
      ?_, ?_, ?_, ?_, ?_⟩
    · intro written
      refine ⟨fun ⟨n, st, text, failed⟩ => reaches failed, ?_⟩
      intro h
      obtain ⟨n, st, f, failed⟩ := fails_of_reachesUnknown derivable h
      obtain ⟨m, hm, -, -, s, mem, hs, rfl⟩ :=
        reaches_of_failed derivable decides filled .fresh n st f failed
      obtain ⟨text, htext⟩ := Option.ne_none_iff_exists'.mp (written m hm s mem hs)
      rw [Stmt.refusal, htext] at failed
      exact ⟨n, st, text, failed⟩
    · intro avoids
      refine Rules.LeftBehind.fresh.finishes decides filled ?_
      intro m reached s mem hs
      exact absurd ⟨m, (derivable (.reached m)).mpr reached, s, mem, hs⟩ avoids
    · intro n st run
      have rest : AtRest rules entries st := atRest_of_finished run
      refine ⟨fun f => ?_, fun m => ?_⟩
      · rw [rest.holds_iff, derivable]
      · rw [rest.mem_entries, (atRest_of_finished run₀).mem_entries]
    · intro st left
      refine ⟨reaches_of_failed derivable decides filled left, ?_, ?_⟩
      · intro entered
        refine left.finishes decides filled ?_
        intro m reached
        exact entered m ((derivable (.reached m)).mpr reached)
      · intro n st' run f hf
        exact (derivable f).mpr (left.derivable run hf)
    · refine Rules.LeftBehind.finishes_eventually decides filled st₀.graph.reachable .fresh ?_
      intro m reached s _ _
      exact Or.inr ((derivable (.reached m)).mpr reached)
  · intro n p s hs
    obtain ⟨kind, deferred, hkind⟩ := deferred_of_waiting hs
    exact ⟨kind, deferred, hkind, resume_of_deferred deferred hkind⟩
  · intro known n st f failed
    obtain ⟨-, m, -, -, -, s, mem, unknown, -⟩ := unknown_of_failed decides filled .fresh failed
    rw [known m.2 s mem] at unknown
    contradiction

namespace Sample

/-- A statement of a kind of its own, which tells how it is written. -/
def jump : Unknown := ⟨"Jump", some "jump"⟩

/-- A statement of no kind at all. -/
def bare : Unknown := ⟨"IRStmt", none⟩

/-- The sample program, where `follow` ends with a statement that is not known. -/
def oddCode (what : Unknown) : CodeBase :=
  { code with
    bodies := ⟨[(main, { stmts := mainStmts }),
      (follow, { stmts := followStmts ++ [⟨⟨3, follow⟩, .other what, false⟩] })]⟩ }

/-- The analysis of this program. -/
def oddRules (what : Unknown) : Rules := { code := oddCode what, selector := .callString 1 }

/-- The analysis of its silenced code. -/
def quietRules (what : Unknown) : Rules :=
  { code := (oddCode what).silenced, selector := .callString 1 }

theorem filled_oddCode (what : Unknown) (m : Method) :
    ∀ s ∈ ((oddCode what).body m).stmts, s.isOpen = false := by
  have filled : ∀ s ∈ (oddCode what).allStmts, s.isOpen = false := by
    show ∀ s ∈ mainStmts ++ (followStmts ++ [⟨⟨3, follow⟩, .other what, false⟩] ++ []), _
    simp only [List.forall_mem_append, List.forall_mem_singleton]
    exact ⟨by decide, ⟨by decide, rfl⟩, by simp⟩
  exact fun s hs => filled s (CodeBase.mem_allStmts hs)

end Sample

/-- The analysis of the sample program fails on the unknown statement of the method that it calls,
and gives the text of it. The analysis of the silenced code reaches this method. -/
theorem fails_iff_unknown_reached_sample :
    (∃ st₀, (Sample.quietRules Sample.jump).analyze 90 {} [Sample.main] = .finished st₀ ∧
      st₀.ReachesUnknown (Sample.oddCode Sample.jump)) ∧
    (∃ n st text, (Sample.oddRules Sample.jump).analyze n {} [Sample.main] =
      .failed st (.unknownStatement text)) ∧
    ∃ st, (Sample.oddRules Sample.jump).LeftBehind [Sample.main] st ∧
      ∃ n st', ∀ k, n ≤ k → (Sample.oddRules Sample.jump).analyze k st [Sample.main] =
        .finished st' := by
  obtain ⟨-, compared, -, -⟩ := fails_iff_unknown_reached (Sample.oddRules Sample.jump)
    (Sample.quietRules Sample.jump) [Sample.main] rfl rfl (fun k h => Selector.noConfusion h)
    (Sample.filled_oddCode Sample.jump)
  have run := Outcome.eq_finished
    (o := (Sample.quietRules Sample.jump).analyze 90 {} [Sample.main]) ⟨_, rfl⟩
  obtain ⟨-, fails, -, -, -, ends⟩ := compared 90 _ run
  have reaches : ((Sample.quietRules Sample.jump).analyze 90 {} [Sample.main]).state.ReachesUnknown
      (Sample.oddCode Sample.jump) := by
    decide
  have texts : ∀ s ∈ (Sample.oddCode Sample.jump).allStmts, s.text? ≠ none := by decide
  have written := fails fun _ _ s hs _ => texts s (CodeBase.mem_allStmts hs)
  exact ⟨⟨_, run, reaches⟩, written.mpr reaches, ends⟩

/-- Unknown statements that are reached and not reported. A statement without text makes every
analysis end with another fault. One with a text is reported twice, once for each context of its
method. The third analysis has a result, which does not know what the call in `main` returns. -/
theorem unknown_statements_unreported :
    ((∃ st₀, (Sample.quietRules Sample.bare).analyze 90 {} [Sample.main] = .finished st₀ ∧
        st₀.ReachesUnknown (Sample.oddCode Sample.bare)) ∧
      (∃ n st, (Sample.oddRules Sample.bare).analyze n {} [Sample.main] = .failed st .textMissing) ∧
      ∀ n st text, (Sample.oddRules Sample.bare).analyze n {} [Sample.main] ≠
        .failed st (.unknownStatement text)) ∧
    (∃ st₀, (Sample.quietRules Sample.jump).analyze 90 {} [Sample.main] = .finished st₀ ∧
      st₀.ReachesUnknown (Sample.oddCode Sample.jump) ∧
      st₀.Holds (.pointsTo (.var [] (Sample.cellVar Sample.main "c")) Sample.theCell)) ∧
    ∃ st st' st'',
      (Sample.oddRules Sample.jump).analyze 90 {} [Sample.main] =
        .failed st (.unknownStatement "jump") ∧
      (Sample.oddRules Sample.jump).analyze 90 st [Sample.main] =
        .failed st' (.unknownStatement "jump") ∧
      (Sample.oddRules Sample.jump).analyze 90 st' [Sample.main] = .finished st'' ∧
      ¬ st''.Holds (.pointsTo (.var [] (Sample.cellVar Sample.main "c")) Sample.theCell) := by
  refine ⟨⟨⟨_, rfl, by decide⟩, ⟨90, _, rfl⟩, ?_⟩, ⟨_, rfl, by decide, by decide⟩,
    _, _, _, rfl, rfl, rfl, by decide⟩
  intro n st text failed
  have textless : ∀ s ∈ (Sample.oddCode Sample.bare).allStmts,
      s.isUnknown = true → s.text? = none := by
    decide
  obtain ⟨-, m, -, -, -, s, mem, unknown, fault⟩ := unknown_of_failed
    (fun k h => Selector.noConfusion h) (Sample.filled_oddCode Sample.bare) .fresh failed
  rw [Stmt.refusal, textless s (CodeBase.mem_allStmts mem) unknown] at fault
  contradiction

end PointsTo

end StaticAnalysis
