import StaticAnalysis.Proofs.PointsTo.Monotonicity

/-!
# Analyses one after the other

An analysis may start from the state that an earlier one has left. Its statements then find
points-to sets that are already full, and objects that no entry of the worklist will ever bring
again.

* `Rules.analyzeEach` — several programs with the same code, analysed one after the other from one
  state.
* `Registers` — the call graph has as entries exactly the methods that were given as such.
* `AtRest` — what finished analyses leave behind: the invariants of soundness and precision for all
  entries so far, and nothing on its way.
* `AtRest.analyze` — **another analysis keeps this**, for the entries of both.
* `run_known` — an analysis of entries that are known leaves the state as it is.

**Main statement** (`analyses_accumulate`): analyses one after the other find out what one analysis
of all their entries finds out, and repeating one of them changes nothing.
-/

namespace StaticAnalysis.PointsTo

/-- Analyses programs with the same code one after the other. Each analysis starts from the state
that the one before has left, and may take `n` steps. -/
def Rules.analyzeEach (rules : Rules) (n : Nat) : State → List (List Method) → Outcome
  | st, [] => .finished st
  | st, entries :: later =>
    match rules.analyze n st entries with
    | .finished st' => rules.analyzeEach n st' later
    | other => other

/-! ### The entries of the call graph -/

section Entries

variable {rules : Rules} {st st' : State} {t : Task} {next : List Task}

/-- Only making a method an entry changes the entries. -/
theorem Performs.entries (done : Performs rules st t st' next) :
    st'.graph.entries = match t with
      | .root m => adjoin st.graph.entries ([], m)
      | _ => st.graph.entries := by
  cases done with
  | direct awaits connected gives => exact congrArg CallGraph.entries connected.graph
  | access connected gives => exact congrArg CallGraph.entries connected.graph
  | wire connected gives => exact congrArg CallGraph.entries connected.graph
  | @callOn s o e gives => exact congrArg CallGraph.entries (st.graph_seed e.callee o)
  | @link e he => exact st.graph.entries_addEdge e
  | _ => rfl

/-- No task makes a method an entry later on. -/
theorem Performs.root_not_mem (done : Performs rules st t st' next) (m : Method) :
    .root m ∉ next := by
  cases done with
  | @hold s v awaits gives =>
    rw [tasks_hold]
    split <;> simp
  | _ => simp

end Entries

/-- The entries of the call graph are the given methods under the empty context; those that are not
there yet are on the agenda. -/
structure Registers (entries : List Method) (c : Config) : Prop where
  entered : ∀ m ∈ entries, ([], m) ∈ c.state.graph.entries ∨ .root m ∈ c.agenda
  entry : ∀ m ∈ c.state.graph.entries, m.1 = [] ∧ m.2 ∈ entries
  roots : ∀ m, .root m ∈ c.agenda → m ∈ entries

section Analyses

variable {rules : Rules} {entries more : List Method}

theorem Registers.perform {st st' : State} {t : Task} {rest next : List Task}
    (h : Registers entries ⟨st, t :: rest⟩) (done : Performs rules st t st' next) :
    Registers entries ⟨st', next ++ rest⟩ := by
  have later : ∀ m, .root m ∈ next ++ rest → .root m ∈ rest := by
    intro m hm
    exact (List.mem_append.mp hm).resolve_left (done.root_not_mem m)
  have kept : ∀ m ∈ st.graph.entries, m ∈ st'.graph.entries := by
    intro m hm
    rw [done.entries]
    split
    · exact mem_adjoin.mpr (Or.inl hm)
    · exact hm
  refine ⟨?_, ?_, ?_⟩
  · intro m hm
    rcases h.entered m hm with hold | htask
    · exact Or.inl (kept _ hold)
    · rcases List.mem_cons.mp htask with rfl | hrest
      · refine Or.inl ?_
        show ([], m) ∈ st'.graph.entries
        rw [done.entries]
        exact mem_adjoin.mpr (Or.inr rfl)
      · exact Or.inr (List.mem_append_right _ hrest)
  · intro m hm
    have hm' : m ∈ st'.graph.entries := hm
    rw [done.entries] at hm'
    split at hm'
    · rcases mem_adjoin.mp hm' with hold | rfl
      · exact h.entry m hold
      · exact ⟨rfl, h.roots _ List.mem_cons_self⟩
    · exact h.entry m hm'
  · intro m hm
    exact h.roots m (List.mem_cons_of_mem _ (later m hm))

theorem Registers.advance {c c' : Config} (h : Registers entries c) (step : Advances rules c c') :
    Registers entries c' := by
  cases step with
  | task done =>
    have := h.perform done
    exact ⟨this.entered, this.entry, this.roots⟩
  | @arrival st p objs rest c pop arrives =>
    -- an arrival leaves the call graph alone and begins with a notification, if at all
    have roots : ∀ m, .root m ∉ c.agenda := by
      intro m hm
      rw [arrives.agenda] at hm
      split at hm
      · exact absurd hm List.not_mem_nil
      · rw [List.mem_singleton] at hm
        contradiction
    refine ⟨?_, ?_, fun m hm => absurd hm (roots m)⟩
    · intro m hm
      show ([], m) ∈ c.state.graph.entries ∨ _
      rw [arrives.graph]
      exact (h.entered m hm).imp id (fun htask => absurd htask List.not_mem_nil)
    · intro m hm
      have hm' : m ∈ c.state.graph.entries := hm
      rw [arrives.graph] at hm'
      exact h.entry m hm'
  | idle empty => exact ⟨h.entered, h.entry, h.roots⟩

/-- With an empty agenda the entries are those that were given, under the empty context. -/
theorem Registers.mem_entries {st : State} (h : Registers entries ⟨st, []⟩) (m : CtxMethod) :
    m ∈ st.graph.entries ↔ m.1 = [] ∧ m.2 ∈ entries := by
  constructor
  · intro hm
    exact h.entry m hm
  · intro hm
    obtain ⟨c, m⟩ := m
    obtain ⟨rfl, hm⟩ := hm
    rcases h.entered m hm with entered | task
    · exact entered
    · exact absurd task List.not_mem_nil

/-! ### More entries -/

section More

variable (sub : entries ⊆ more)

include sub

theorem Rules.Derivable.mono {f : Fact} (h : rules.Derivable entries f) : rules.Derivable more f :=
  h.extend rfl (.refl _) sub

theorem Stands.mono {s : CtxStmt} (h : Stands rules entries s) : Stands rules more s := by
  obtain ⟨m, reached, mem⟩ := h
  exact ⟨m, reached.mono sub, mem⟩

/-- What is justified stays so when entries are added. -/
theorem Justified.mono {st : State} (h : Justified rules entries ⟨st, []⟩) :
    Justified rules more ⟨st, []⟩ := by
  refine ⟨?_, ?_, ?_⟩
  · intro f hf
    exact (h.settled f hf).mono sub
  · intro p s hs
    obtain ⟨stands, awaits⟩ := h.waiting p s hs
    exact ⟨stands.mono sub, awaits⟩
  · intro t ht
    exact absurd ht List.not_mem_nil

end More

/-! ### What finished analyses leave behind -/

/-- Analyses with these entries have come to rest in a state: nothing has been left out or made up,
the entries are those of the call graph, and no objects are on their way. -/
structure AtRest (rules : Rules) (entries : List Method) (st : State) : Prop where
  pursued : Pursued rules entries ⟨st, []⟩
  justified : Justified rules entries ⟨st, []⟩
  registers : Registers entries ⟨st, []⟩
  empty : st.work.toList = []

/-- At the very beginning everything is at rest. -/
theorem atRest_empty : AtRest rules [] {} where
  pursued := .start
  justified := .start
  registers :=
    { entered := fun _ hm => absurd hm List.not_mem_nil
      entry := fun _ hm => absurd hm List.not_mem_nil
      roots := fun _ hm => absurd hm List.not_mem_nil }
  empty := rfl

namespace AtRest

variable {st st' : State}

/-- **What is known at rest is what can be derived.** -/
theorem holds_iff (h : AtRest rules entries st) (f : Fact) :
    st.Holds f ↔ rules.Derivable entries f := by
  constructor
  · intro hf
    exact h.justified.settled f hf.settles
  · intro hf
    exact hf.mem_of_closed (h.pursued.closed h.empty)

theorem mem_entries (h : AtRest rules entries st) (m : CtxMethod) :
    m ∈ st.graph.entries ↔ m.1 = [] ∧ m.2 ∈ entries :=
  h.registers.mem_entries m

/-- The history is no part of it. -/
theorem record (h : AtRest rules entries st) (e : Event) : AtRest rules entries (st.record e) := by
  have promise : ∀ {f : Fact}, Promised rules ⟨st, []⟩ f → Promised rules ⟨st.record e, []⟩ f := by
    intro f hf
    exact Or.inl hf.settled
  have settled : ∀ f, (st.record e).Settles f → st.Settles f := fun f hf => hf
  refine ⟨?_, ⟨fun f hf => h.justified.settled f (settled f hf), h.justified.waiting,
    h.justified.agenda⟩, ⟨h.registers.entered, h.registers.entry, h.registers.roots⟩, h.empty⟩
  exact ⟨fun m hm => promise (h.pursued.entry m hm),
    fun m hm s hs f hf => promise (h.pursued.stmt m hm s hs f hf), h.pursued.awaits,
    fun p s hs o ho f hf => promise (h.pursued.applied p s hs o ho f hf),
    fun e he => promise (h.pursued.callee e he),
    fun e he f hf => promise (h.pursued.wired e he f hf), h.pursued.flow, h.pursued.vars⟩

/-! ### Another analysis -/

section Start

variable (h : AtRest rules entries st) (more : List Method)

include h

/-- At the start of another analysis every fact that the rules ask for is settled, apart from the
reachability of the new entries. -/
theorem pursued_start : Pursued rules (entries ++ more) ⟨st, more.map .root⟩ := by
  have promise : ∀ {f : Fact}, Promised rules ⟨st, []⟩ f →
      Promised rules ⟨st, more.map .root⟩ f := by
    intro f hf
    exact Or.inl hf.settled
  refine ⟨?_, ?_, ?_, ?_, ?_, ?_, h.pursued.flow, h.pursued.vars⟩
  · intro m hm
    rcases List.mem_append.mp hm with hold | hnew
    · exact promise (h.pursued.entry m hold)
    · exact Or.inr ⟨.root m, List.mem_map.mpr ⟨m, hnew, rfl⟩, rfl⟩
  · intro m hm s hs f hf
    exact promise (h.pursued.stmt m hm s hs f hf)
  · intro m hm s hs v hv
    rcases h.pursued.awaits m hm s hs v hv with waits | task
    · exact Or.inl waits
    · exact absurd task List.not_mem_nil
  · intro p s hs o ho f hf
    exact promise (h.pursued.applied p s hs o ho f hf)
  · intro e he
    exact promise (h.pursued.callee e he)
  · intro e he f hf
    exact promise (h.pursued.wired e he f hf)

theorem justified_start : Justified rules (entries ++ more) ⟨st, more.map .root⟩ := by
  have old : Justified rules (entries ++ more) ⟨st, []⟩ :=
    h.justified.mono (List.subset_append_left entries more)
  refine ⟨old.settled, old.waiting, ?_⟩
  intro t ht
  obtain ⟨m, hm, rfl⟩ := List.mem_map.mp ht
  exact List.mem_append_right _ hm

theorem registers_start : Registers (entries ++ more) ⟨st, more.map .root⟩ := by
  refine ⟨?_, ?_, ?_⟩
  · intro m hm
    rcases List.mem_append.mp hm with hold | hnew
    · exact Or.inl ((h.mem_entries ([], m)).mpr ⟨rfl, hold⟩)
    · exact Or.inr (List.mem_map.mpr ⟨m, hnew, rfl⟩)
  · intro m hm
    obtain ⟨context, hold⟩ := h.registers.entry m hm
    exact ⟨context, List.mem_append_left _ hold⟩
  · intro m hm
    obtain ⟨m', hm', heq⟩ := List.mem_map.mp hm
    cases heq
    exact List.mem_append_right _ hm'

end Start

/-- **Another analysis leaves a state at rest**, for its entries and all those before. -/
theorem analyze (h : AtRest rules entries st) {n : Nat}
    (run : rules.analyze n st more = .finished st') : AtRest rules (entries ++ more) st' := by
  let Inv (c : Config) : Prop := Pursued rules (entries ++ more) c ∧
    Justified rules (entries ++ more) c ∧ Registers (entries ++ more) c
  have kept : ∀ {c c' : Config}, Inv c → Advances rules c c' → Inv c' := by
    intro c c' hc step
    exact ⟨hc.1.advance step, hc.2.1.advance step, hc.2.2.advance step⟩
  have start : Inv ⟨st, more.map .root⟩ :=
    ⟨h.pursued_start more, h.justified_start more, h.registers_start more⟩
  obtain ⟨st'', hInv, empty, e, rfl⟩ := analyze_finished kept start run
  exact AtRest.record ⟨hInv.1, hInv.2.1, hInv.2.2, empty⟩ e

/-- The same for several analyses. -/
theorem analyzeEach (h : AtRest rules entries st) {n : Nat} {programs : List (List Method)}
    (run : rules.analyzeEach n st programs = .finished st') :
    AtRest rules (entries ++ programs.flatten) st' := by
  induction programs generalizing entries st with
  | nil =>
    cases run
    rw [List.flatten_nil, List.append_nil]
    exact h
  | cons first later ih =>
    rw [Rules.analyzeEach] at run
    split at run
    · next st₁ hfirst =>
      rw [List.flatten_cons, ← List.append_assoc]
      exact ih (h.analyze hfirst) run
    · next hother => exact absurd run (hother st')

/-- Several analyses come to an end, unless one of them meets an open operand. -/
theorem analyzeEach_finishes (h : AtRest rules entries st)
    (decides : ∀ k, rules.selector ≠ .undecided k)
    (known : ∀ m, ∀ s ∈ (rules.code.body m).stmts, s.isUnknown = false)
    {programs : List (List Method)} (gapless : ¬ rules.MeetsGap (entries ++ programs.flatten)) :
    ∃ n st', ∀ k, n ≤ k → rules.analyzeEach k st programs = .finished st' := by
  induction programs generalizing entries st with
  | nil => exact ⟨0, st, fun k _ => rfl⟩
  | cons first later ih =>
    rw [List.flatten_cons, ← List.append_assoc] at gapless
    have before : ¬ rules.MeetsGap (entries ++ first) := fun gap =>
      gapless (gap.extend rfl (.refl _) (List.subset_append_left _ _))
    obtain ⟨n, st₁, run⟩ := analyze_finishes_from (h.justified_start first) decides known before
    obtain ⟨n', st', run'⟩ := ih (h.analyze (run n (Nat.le_refl n))) gapless
    refine ⟨max n n', st', ?_⟩
    intro k hk
    rw [Rules.analyzeEach, run k (by omega)]
    exact run' k (by omega)

end AtRest

theorem atRest_of_finished {n : Nat} {st : State} (h : rules.analyze n {} entries = .finished st) :
    AtRest rules entries st :=
  atRest_empty.analyze h

/-! ### Entries that are known -/

/-- A step of a busy machine. -/
theorem run_of_step {n : Nat} {c c' : Config} {t : Task} {rest : List Task}
    (h : c.agenda = t :: rest) (step : rules.step c = .ok c') :
    rules.run Rules.done (n + 1) c = rules.run Rules.done n c' := by
  have busy : ¬ Rules.done c = true := by
    rw [Rules.done, h]
    exact Bool.false_ne_true
  rw [Rules.run, if_neg busy, step]

/-- **Entries that are known bring nothing new**: the machine makes two steps for each of them, and
only the clock goes on. -/
theorem run_known {more : List Method} {st : State}
    (entered : ∀ m ∈ more, ([], m) ∈ st.graph.entries)
    (reached : ∀ m ∈ more, ([], m) ∈ st.graph.reachable) (empty : st.work.toList = []) {k : Nat}
    (hk : 2 * more.length ≤ k) :
    rules.run Rules.done k ⟨st, more.map .root⟩
      = .finished { st with clock := st.clock + 2 * more.length } := by
  induction more generalizing st k with
  | nil =>
    have rest : Rules.done ⟨st, []⟩ = true := Queue.isEmpty_iff.mpr empty
    cases k <;> exact if_pos rest
  | cons m more ih =>
    obtain ⟨k, rfl⟩ : ∃ j, k = j + 2 := ⟨k - 2, by rw [List.length_cons] at hk; omega⟩
    have graph : st.graph.addEntry ([], m) = st.graph := by
      rw [CallGraph.addEntry, adjoin_of_mem (entered m List.mem_cons_self)]
    have enter : rules.step ⟨st, (m :: more).map .root⟩
        = .ok (Rules.tick ⟨st, .enter ([], m) :: more.map .root⟩) := by
      show Except.ok (Rules.tick ⟨{ st with graph := st.graph.addEntry ([], m) }, _⟩) = _
      rw [graph]
      rfl
    have skip : rules.step (Rules.tick ⟨st, .enter ([], m) :: more.map .root⟩)
        = .ok (Rules.tick (Rules.tick ⟨st, more.map .root⟩)) := by
      have hadd : st.graph.addReachable ([], m) = (false, st.graph) :=
        if_pos (reached m List.mem_cons_self)
      simp only [Rules.step, Rules.tick, Rules.perform, hadd, Except.map, List.nil_append]
    have shorter : 2 * more.length ≤ k := by
      rw [List.length_cons] at hk
      omega
    have later : rules.run Rules.done k ⟨{ st with clock := st.clock + 1 + 1 }, more.map .root⟩
        = .finished { st with clock := st.clock + 1 + 1 + 2 * more.length } :=
      @ih { st with clock := st.clock + 1 + 1 } (fun m hm => entered m (List.mem_cons_of_mem _ hm))
        (fun m hm => reached m (List.mem_cons_of_mem _ hm)) empty k shorter
    have clock : st.clock + 1 + 1 + 2 * more.length = st.clock + 2 * (m :: more).length := by
      rw [List.length_cons]
      omega
    rw [run_of_step rfl enter, run_of_step rfl skip, ← clock]
    exact later

/-- An analysis of entries that are known at rest leaves the state as it is, up to the clock and the
history. -/
theorem AtRest.analyze_known {st : State} (h : AtRest rules entries st) (known : more ⊆ entries) :
    ∃ n clock history, ∀ k, n ≤ k →
      rules.analyze k st more = .finished { st with clock := clock, history := history } := by
  have entered : ∀ m ∈ more, ([], m) ∈ st.graph.entries :=
    fun m hm => (h.mem_entries ([], m)).mpr ⟨rfl, known hm⟩
  have reached : ∀ m ∈ more, ([], m) ∈ st.graph.reachable :=
    fun m hm => (h.holds_iff (.reached ([], m))).mpr (.entry (known hm))
  refine ⟨2 * more.length, st.clock + 2 * more.length,
    .settled st.graph.reachable.length st.graph.size st.pool.pointers.length st.pool.objects.length
      :: st.history, ?_⟩
  intro k hk
  rw [Rules.analyze, run_known entered reached h.empty hk]
  rfl

end Analyses

/-! ### The statement about analyses one after the other -/

/-- **Analyses one after the other find out what one analysis of all their entries finds out.** Take
one code base, programs that differ in their entries, and two analyses that choose contexts alike,
each with its own orders.

* Analysing the programs one after the other, each from the state that the one before has left, and
  analysing the concatenation of their entries afresh both have results, unless a reachable
  statement leaves an operand open.
* Both results have the same reachable methods, call edges, flow edges and points-to sets, and the
  same entries.
* Analysing entries again that have been analysed leaves the state as it is; only the clock and the
  history go on. -/
theorem analyses_accumulate (rules rules' : Rules) (programs : List (List Method))
    (code : rules'.code = rules.code) (selector : rules'.selector = rules.selector)
    (decides : ∀ k, rules.selector ≠ .undecided k)
    (known : ∀ m, ∀ s ∈ (rules.code.body m).stmts, s.isUnknown = false) :
    (rules.MeetsGap programs.flatten ∨
      ∃ n st st', (∀ k, n ≤ k → rules.analyzeEach k {} programs = .finished st) ∧
        ∀ k, n ≤ k → rules'.analyze k {} programs.flatten = .finished st') ∧
    (∀ n n' st st', rules.analyzeEach n {} programs = .finished st →
      rules'.analyze n' {} programs.flatten = .finished st' →
        (∀ f, st.Holds f ↔ st'.Holds f) ∧ ∀ m, m ∈ st.graph.entries ↔ m ∈ st'.graph.entries) ∧
    ∀ n st, rules.analyzeEach n {} programs = .finished st → ∀ again, again ⊆ programs.flatten →
      ∃ n' clock history, ∀ k, n' ≤ k →
        rules.analyze k st again = .finished { st with clock := clock, history := history } := by
  have part : rules.code.PartOf rules'.code := by
    rw [code]
    exact .refl _
  have part' : rules'.code.PartOf rules.code := by
    rw [code]
    exact .refl _
  have derivable : ∀ f, rules.Derivable programs.flatten f ↔
      rules'.Derivable programs.flatten f := by
    intro f
    exact ⟨fun h => h.extend selector part (List.Subset.refl _),
      fun h => h.extend selector.symm part' (List.Subset.refl _)⟩
  refine ⟨?_, ?_, ?_⟩
  · by_cases gap : rules.MeetsGap programs.flatten
    · exact Or.inl gap
    · have gap' : ¬ rules'.MeetsGap programs.flatten := fun h =>
        gap (h.extend selector.symm part' (List.Subset.refl _))
      have decides' : ∀ k, rules'.selector ≠ .undecided k := by
        rw [selector]
        exact decides
      obtain ⟨n, st, run⟩ := atRest_empty.analyzeEach_finishes decides known gap
      have known' : ∀ m, ∀ s ∈ (rules'.code.body m).stmts, s.isUnknown = false := by
        rw [code]
        exact known
      obtain ⟨n', st', run'⟩ := analyze_finishes_from .start decides' known' gap'
      exact Or.inr ⟨max n n', st, st', fun k hk => run k (by omega), fun k hk => run' k (by omega)⟩
  · intro n n' st st' h h'
    have rest : AtRest rules programs.flatten st := atRest_empty.analyzeEach h
    have rest' : AtRest rules' programs.flatten st' := atRest_of_finished h'
    refine ⟨?_, ?_⟩
    · intro f
      rw [rest.holds_iff, rest'.holds_iff, derivable]
    · intro m
      rw [rest.mem_entries, rest'.mem_entries]
  · intro n st h again sub
    have rest : AtRest rules programs.flatten st := atRest_empty.analyzeEach h
    exact rest.analyze_known sub

/-! ### An exchange through a static field

`put` is `a = new Cell; Cell.shared = a`, and `get` is `b = Cell.shared; c = b.follow()`. Neither
calls the other. When `put` was analysed before, the cell has long arrived at the field. -/

namespace Exchange

open Sample

def shared : Field := ⟨1, "shared", cell, .cls cell, true⟩

def put : Method := ⟨2, "put", cell, [], [], .void, true, false⟩

def get : Method := ⟨3, "get", cell, [], [], .void, true, false⟩

def putStmts : List Stmt :=
  [⟨⟨0, put⟩, .alloc (cellVar put "a") (.cls cell), false⟩,
    ⟨⟨1, put⟩, .storeField none shared (cellVar put "a"), false⟩]

def getStmts : List Stmt :=
  [⟨⟨0, get⟩, .loadField (cellVar get "b") none shared, false⟩,
    ⟨⟨1, get⟩, .call ⟨.virtual, ⟨cell, "Cell follow()"⟩, cellVar get "b", [],
      cellVar get "c"⟩, false⟩]

def code : CodeBase :=
  { Sample.code with
    bodies := ⟨[(put, { stmts := putStmts }), (get, { stmts := getStmts }),
      (follow, { stmts := followStmts })]⟩ }

def rules : Rules := { code := code, selector := .objectChain 1 }

/-- Sets of objects and of pointers are taken the other way. -/
def turned : Rules := { reversedRules (.objectChain 1) with code := code }

/-- The cell that `put` makes. -/
def theCell : HeapObj := ⟨[], ⟨⟨0, put⟩, cellVar put "a", .cls cell⟩⟩

end Exchange

/-- `get` finds the cell that the analysis of `put` has left in the static field, and calls `follow`
on it. -/
theorem analyses_accumulate_exchange :
    ∃ st st', Exchange.rules.analyzeEach 40 {} [[Exchange.put], [Exchange.get]] = .finished st ∧
      Exchange.turned.analyze 40 {} [Exchange.put, Exchange.get] = .finished st' ∧
      st.Holds (.pointsTo (.var [.object Exchange.theCell.alloc] Sample.follow.this?)
        Exchange.theCell) ∧
      (∀ f, st.Holds f ↔ st'.Holds f) ∧
      ∃ n clock history, ∀ k, n ≤ k →
        Exchange.rules.analyze k st [Exchange.put] = .finished
          { st with clock := clock, history := history } := by
  have known : ∀ s ∈ Exchange.code.allStmts, s.isUnknown = false := by decide
  have again : [Exchange.put] ⊆ [[Exchange.put], [Exchange.get]].flatten := by simp
  obtain ⟨-, same, repeated⟩ := analyses_accumulate Exchange.rules Exchange.turned
    [[Exchange.put], [Exchange.get]] rfl rfl (fun k h => nomatch h)
    (fun m s hs => known s (CodeBase.mem_allStmts hs))
  have run := Outcome.eq_finished
    (o := Exchange.rules.analyzeEach 40 {} [[Exchange.put], [Exchange.get]]) ⟨_, rfl⟩
  have fresh := Outcome.eq_finished
    (o := Exchange.turned.analyze 40 {} [Exchange.put, Exchange.get]) ⟨_, rfl⟩
  exact ⟨_, _, run, fresh, by decide, (same 40 40 _ _ run fresh).1, repeated 40 _ run _ again⟩

end StaticAnalysis.PointsTo
