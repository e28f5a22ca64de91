import StaticAnalysis.Proofs.CallGraph.Discovery
import StaticAnalysis.Proofs.PointsTo.LoopHeads
import StaticAnalysis.PointsTo.Result

/-!
# The call graph that the pointer analysis builds on the fly

A call edge is recorded first, then its callee is entered, and the statements of the callee may
bring further edges and methods before anything else is done. Objects that arrive much later make
further calls. Whatever the order, a call is made by a statement of a method that has been entered.

* `State.Houses` — a statement stands in a method that is reachable under its context.
* `Task.Placed` — what puts a task on the agenda: its statement stands in a reachable method, or the
  method to enter is an entry or has been called.
* `Traced` — the invariant: all statements that are begun, waiting or the site of an edge are
  housed, and every reachable method was found after what led to it.
* `Traced.perform`, `Traced.advance` — one task and one step keep it.
* `rooted_at_head` — at a head of the loop nothing that was called is left to be entered.

**Main statement** (`callGraph_connected_from_entries`): at every head of the worklist loop and at
the end the reachable methods are those on paths of call edges from the entries, with contexts and
without.
-/

namespace StaticAnalysis.PointsTo

/-- A statement stands in a method that is reachable under its context. -/
def State.Houses (st : State) (s : CtxStmt) : Prop := (s.1, s.2.method) ∈ st.graph.reachable

/-- What puts a task on the agenda, as far as the call graph knows. -/
def Task.Placed (st : State) : Task → Prop
  | .enter m => m ∈ st.graph.entries ∨ ∃ e ∈ st.graph.edges, e.callee = m
  | .exec s | .resume s _ | .invoke s _ => st.Houses s
  | .link e => st.Houses e.site
  | .root _ | .wire _ | .notify _ _ _ => True

/-- All that the machine has begun stands in reachable methods, and each of these was found after
what led to it. -/
structure Traced (code : CodeBase) (c : Config) : Prop where
  agenda : ∀ t ∈ c.agenda, t.Placed c.state
  waiting : ∀ p, ∀ s ∈ c.state.waitingFor p, c.state.Houses s
  edges : ∀ e ∈ c.state.graph.edges, c.state.Houses e.site
  found : ∀ m ∈ c.state.graph.reachable, c.state.graph.Found (.contextual code) m

section Steps

variable {rules : Rules} {code : CodeBase} {st st' : State} {t : Task} {rest next : List Task}

theorem State.Houses.mono {s : CtxStmt} (h : st.graph.Unfolds st'.graph) (houses : st.Houses s) :
    st'.Houses s :=
  h.reachable.subset houses

theorem Task.Placed.mono (h : st.graph.Unfolds st'.graph) {t : Task} (placed : t.Placed st) :
    t.Placed st' := by
  cases t with
  | enter m =>
    rcases placed with entry | ⟨e, he, callee⟩
    · exact Or.inl (h.entries entry)
    · exact Or.inr ⟨e, h.edges he, callee⟩
  | exec s => exact State.Houses.mono h placed
  | resume s objs => exact State.Houses.mono h placed
  | invoke s o => exact State.Houses.mono h placed
  | link e => exact State.Houses.mono h placed
  | root m => trivial
  | wire e => trivial
  | notify p next objs => trivial

/-! ### One step -/

namespace Traced

/-- A task that lets the call graph get larger: what it adds has to be placed and found; the rest
is. -/
theorem extend (h : Traced code ⟨st, t :: rest⟩) (unfolds : st.graph.Unfolds st'.graph)
    (waiting : ∀ p, ∀ s ∈ st'.waitingFor p, s ∈ st.waitingFor p ∨ st.Houses s)
    (edges : ∀ e ∈ st'.graph.edges, e ∈ st.graph.edges ∨ st.Houses e.site)
    (found : ∀ m ∈ st'.graph.reachable, m ∈ st.graph.reachable ∨
      st'.graph.Found (.contextual code) m)
    (agenda : ∀ t' ∈ next, t'.Placed st') : Traced code ⟨st', next ++ rest⟩ where
  agenda t' ht' := by
    rcases List.mem_append.mp ht' with new | old
    · exact agenda t' new
    · exact (h.agenda t' (List.mem_cons_of_mem t old)).mono unfolds
  waiting p s hs := by
    rcases waiting p s hs with old | houses
    · exact (h.waiting p s old).mono unfolds
    · exact houses.mono unfolds
  edges e he := by
    rcases edges e he with old | houses
    · exact (h.edges e old).mono unfolds
    · exact houses.mono unfolds
  found m hm := by
    rcases found m hm with old | new
    · exact (h.found m old).mono unfolds h.edges old
    · exact new

/-- A task that leaves the call graph alone, and lets no statement wait. -/
theorem same (h : Traced code ⟨st, t :: rest⟩) (graph : st'.graph = st.graph)
    (waitingFor : ∀ p, st'.waitingFor p = st.waitingFor p) (agenda : ∀ t' ∈ next, t'.Placed st') :
    Traced code ⟨st', next ++ rest⟩ :=
  h.extend (.of_eq graph) (fun p _ hs => Or.inl (waitingFor p ▸ hs))
    (fun _ he => Or.inl (graph ▸ he))
    (fun _ hm => Or.inl (graph ▸ hm)) agenda

/-- **A method is entered**: its caller, if it is no entry, was entered before. -/
theorem enter (declared : code.Declared) {m : CtxMethod} (h : Traced code ⟨st, .enter m :: rest⟩)
    (new : m ∉ st.graph.reachable) :
    Traced code ⟨st.reach m, ((code.body m.2).stmts.map fun s => .exec (m.1, s)) ++ rest⟩ := by
  have unfolds : st.graph.Unfolds (st.reach m).graph :=
    ⟨List.Subset.refl _, List.Subset.refl _, List.prefix_append _ _⟩
  refine h.extend unfolds (fun p s hs => Or.inl hs) (fun e he => Or.inl he) ?_ ?_
  · intro m' hm'
    rcases List.mem_append.mp hm' with old | here
    · exact Or.inl old
    · refine Or.inr ?_
      rw [List.mem_singleton.mp here]
      rcases h.agenda _ List.mem_cons_self with entry | ⟨e, he, rfl⟩
      · exact Or.inl entry
      · exact CallGraph.found_of_caller he rfl (h.edges e he) new
  · intro t' ht'
    obtain ⟨s, hs, rfl⟩ := List.mem_map.mp ht'
    show (m.1, s.method) ∈ st.graph.reachable ++ [m]
    rw [declared.method_of_mem_stmts hs]
    exact List.mem_append_right _ List.mem_cons_self

/-- **A statement begins to wait**; if there are objects already, it is applied to them next. -/
theorem hold {s : CtxStmt} {v : Operand} (h : Traced code ⟨st, .exec s :: rest⟩) :
    Traced code ⟨(hold st s v).1, (hold st s v).2 ++ rest⟩ := by
  have placed : st.Houses s := h.agenda _ List.mem_cons_self
  refine h.extend (.of_eq rfl) ?_ (fun e he => Or.inl he) (fun m hm => Or.inl hm) ?_
  · intro p s' hs'
    rw [waitingFor_hold] at hs'
    split at hs'
    · rcases List.mem_append.mp hs' with old | new
      · exact Or.inl old
      · rw [List.mem_singleton.mp new]
        exact Or.inr placed
    · exact Or.inl hs'
  · intro t' ht'
    rw [tasks_hold] at ht'
    split at ht'
    · exact absurd ht' List.not_mem_nil
    · rw [List.mem_singleton.mp ht']
      exact placed

/-- **A call edge is recorded**, and from then on its callee may be entered. -/
theorem link {e : CtxEdge} (h : Traced code ⟨st, .link e :: rest⟩) :
    Traced code ⟨{ st with graph := (st.graph.addEdge e).2 },
      [.enter e.callee, .wire e] ++ rest⟩ := by
  have larger : ∀ e', e' ∈ (st.graph.addEdge e).2.edges ↔ e' ∈ st.graph.edges ∨ e' = e := by
    intro e'
    rw [CallGraph.edges_addEdge]
    exact mem_adjoin
  have unfolds : st.graph.Unfolds (st.graph.addEdge e).2 := by
    refine ⟨?_, fun e' he' => (larger e').mpr (Or.inl he'), ?_⟩
    · exact (st.graph.entries_addEdge e).symm ▸ List.Subset.refl _
    · exact (st.graph.reachable_addEdge e).symm ▸ List.prefix_refl _
  refine h.extend unfolds (fun p s hs => Or.inl hs) ?_ ?_ ?_
  · intro e' he'
    rcases (larger e').mp he' with old | rfl
    · exact Or.inl old
    · exact Or.inr (h.agenda _ List.mem_cons_self)
  · intro m hm
    exact Or.inl (st.graph.reachable_addEdge e ▸ hm)
  · intro t' ht'
    rcases List.mem_cons.mp ht' with rfl | ht'
    · exact Or.inr ⟨e, (larger e).mpr (Or.inr rfl), rfl⟩
    · rw [List.mem_singleton.mp ht']
      trivial

end Traced

/-- A call edge leaves the statement that makes the call. -/
theorem Rules.Gives.site {s : CtxStmt} {e : CtxEdge} (h : rules.Gives s (.called e)) :
    e.site = s := by
  cases h
  rfl

theorem Rules.GivesOn.site {s : CtxStmt} {o : HeapObj} {e : CtxEdge}
    (h : rules.GivesOn s o (.called e)) : e.site = s := by
  cases h
  rfl

/-- **One task keeps the invariant.** -/
theorem Traced.perform (declared : rules.code.Declared) (h : Traced rules.code ⟨st, t :: rest⟩)
    (done : Performs rules st t st' next) : Traced rules.code ⟨st', next ++ rest⟩ := by
  have placed : t.Placed st := h.agenda t List.mem_cons_self
  cases done with
  | root m =>
    have entered : ∀ m' ∈ st.graph.entries, m' ∈ adjoin st.graph.entries ([], m) :=
      fun m' hm' => mem_adjoin.mpr (Or.inl hm')
    refine h.extend ⟨entered, List.Subset.refl _, List.prefix_refl _⟩ (fun p s hs => Or.inl hs)
      (fun e he => Or.inl he)
      (fun m' hm' => Or.inl hm') ?_
    intro t' ht'
    rw [List.mem_singleton.mp ht']
    exact Or.inl (mem_adjoin.mpr (Or.inr rfl))
  | known hm => exact h.same rfl (fun p => rfl) (by simp)
  | enter new => exact h.enter declared new
  | alloc awaits gives => exact h.same rfl (fun p => rfl) (by simp)
  | direct awaits connected gives => exact h.same connected.graph connected.waitingFor (by simp)
  | hold awaits gives => exact h.hold
  | @callDirectly s e awaits gives =>
    refine h.same rfl (fun p => rfl) ?_
    intro t' ht'
    rw [List.mem_singleton.mp ht']
    show st.Houses e.site
    rw [((gives _).mpr rfl).site]
    exact placed
  | access connected gives => exact h.same connected.graph connected.waitingFor (by simp)
  | @spread s objs ordered call perm =>
    refine h.same rfl (fun p => rfl) ?_
    intro t' ht'
    obtain ⟨o, -, rfl⟩ := List.mem_map.mp ht'
    exact placed
  | noTarget gives => exact h.same rfl (fun p => rfl) (by simp)
  | @callOn s o e gives =>
    refine h.same (st.graph_seed e.callee o) (st.waitingFor_seed e.callee o) ?_
    intro t' ht'
    rw [List.mem_singleton.mp ht']
    show (st.seed e.callee o).Houses e.site
    rw [((gives _).mpr (Or.inl rfl)).site, State.Houses, st.graph_seed]
    exact placed
  | linked he => exact h.same rfl (fun p => rfl) (by simp)
  | link he => exact h.link
  | wire connected gives => exact h.same connected.graph connected.waitingFor (by simp)
  | notified hnext => exact h.same rfl (fun p => rfl) (by simp)
  | @notify p next objs s hs =>
    refine h.same rfl (fun p => rfl) ?_
    intro t' ht'
    rcases List.mem_cons.mp ht' with rfl | ht'
    · exact h.waiting p s (List.mem_of_getElem? hs)
    · rw [List.mem_singleton.mp ht']
      trivial

theorem Traced.advance (declared : rules.code.Declared) {c c' : Config} (h : Traced rules.code c)
    (step : Advances rules c c') : Traced rules.code c' := by
  cases step with
  | task done =>
    have kept := h.perform declared done
    exact ⟨kept.agenda, kept.waiting, kept.edges, kept.found⟩
  | @arrival st p objs rest c pop arrives =>
    have same : st.graph.Unfolds c.state.graph := .of_eq arrives.graph
    refine ⟨?_, ?_, ?_, ?_⟩
    · intro t ht
      have ht' : t ∈ c.agenda := ht
      rw [arrives.agenda] at ht'
      split at ht'
      · exact absurd ht' List.not_mem_nil
      · rw [List.mem_singleton.mp ht']
        trivial
    · intro q s hs
      exact (h.waiting q s (arrives.waitingFor q ▸ hs)).mono same
    · intro e he
      exact (h.edges e (arrives.graph ▸ he)).mono same
    · intro m hm
      have old : m ∈ st.graph.reachable := arrives.graph ▸ hm
      exact (h.found m old).mono same h.edges old
  | idle empty => exact ⟨h.agenda, h.waiting, h.edges, h.found⟩

end Steps

theorem Traced.start (code : CodeBase) (entries : List Method) :
    Traced code ⟨{}, entries.map .root⟩ := by
  refine ⟨?_, ?_, ?_, ?_⟩
  · intro t ht
    obtain ⟨m, -, rfl⟩ := List.mem_map.mp ht
    trivial
  · intro p s hs
    exact absurd hs List.not_mem_nil
  · intro e he
    exact absurd he List.not_mem_nil
  · intro m hm
    exact absurd hm List.not_mem_nil

/-! ### At the heads of the loop -/

section Heads

variable {rules : Rules} {entries : List Method} {n : Nat} {st : State}

theorem traced_at_head (declared : rules.code.Declared)
    (h : rules.headAfter? {} entries n = some st) : Traced rules.code ⟨st, []⟩ :=
  holds_at_head (fun kept step => kept.advance declared step) (.start rules.code entries) h

/-- **At a head the graph hangs together**: what was called has been entered. -/
theorem rooted_at_head (declared : rules.code.Declared)
    (h : rules.headAfter? {} entries n = some st) : st.graph.Rooted (.contextual rules.code) := by
  have traced := traced_at_head declared h
  have pursued := pursued_at_head h
  refine ⟨traced.edges, ?_, ?_, traced.found⟩
  · intro e he
    exact (pursued.callee e he).settled
  · intro m hm
    obtain ⟨c, m⟩ := m
    obtain ⟨rfl, given⟩ := (registers_at_head h).entry _ hm
    exact (pursued.entry m given).settled

end Heads

/-- **The call graph is connected from the entries.** The code is made by declarations; contexts may
be chosen in any way. At every head of the worklist loop, and when the analysis has finished:

* the entries of the graph are those of the program, under the empty context;
* calls are made by reachable methods and lead to such, and every reachable method is an entry or
  the callee of an edge that leaves a method found strictly before (`CallGraph.Rooted`);
* so the reachable methods are those on paths of call edges from the entries;

and the same holds of the call graph without contexts. -/
theorem callGraph_connected_from_entries (rules : Rules) (declared : rules.code.Declared)
    (entries : List Method) (n : Nat) (st : State)
    (h : rules.headAfter? {} entries n = some st ∨ rules.analyze n {} entries = .finished st) :
    ((∀ m, m ∈ st.graph.entries ↔ m.1 = [] ∧ m.2 ∈ entries) ∧
      st.graph.Rooted (.contextual rules.code) ∧
      ∀ m, m ∈ st.graph.reachable ↔
        ∃ entry ∈ entries, Relation.ReflTransGen (st.graph.Calls (.contextual rules.code))
          ([], entry) m) ∧
    (∀ m, m ∈ st.callGraph.entries ↔ m ∈ entries) ∧ st.callGraph.Rooted (.plain rules.code) ∧
      ∀ m, m ∈ st.callGraph.reachable ↔
        ∃ entry ∈ entries, Relation.ReflTransGen (st.callGraph.Calls (.plain rules.code))
          entry m := by
  have head : ∃ st', rules.headAfter? {} entries n = some st' ∧ st'.graph = st.graph := by
    rcases h with head | finished
    · exact ⟨st, head, rfl⟩
    · obtain ⟨st', head, e, rfl⟩ := head_of_analyze finished
      exact ⟨st', head, rfl⟩
  obtain ⟨st', head, graph⟩ := head
  have given : ∀ m, m ∈ st.graph.entries ↔ m.1 = [] ∧ m.2 ∈ entries :=
    graph ▸ (registers_at_head head).mem_entries
  have rooted : st.graph.Rooted (.contextual rules.code) := graph ▸ rooted_at_head declared head
  have plain : st.callGraph.Rooted (.plain rules.code) := rooted.dropContexts
  have givenPlain : ∀ m, m ∈ st.callGraph.entries ↔ m ∈ entries := by
    intro m
    rw [State.callGraph, CallGraph.entries_dropContexts, mem_distinct, List.mem_map]
    constructor
    · intro ⟨m', hm', same⟩
      exact same ▸ ((given m').mp hm').2
    · intro hm
      exact ⟨([], m), (given _).mpr ⟨rfl, hm⟩, rfl⟩
  refine ⟨⟨given, rooted, ?_⟩, givenPlain, plain, ?_⟩
  · intro m
    rw [rooted.mem_reachable_iff]
    constructor
    · intro ⟨⟨c, entry⟩, hentry, path⟩
      obtain ⟨rfl, hm⟩ := (given _).mp hentry
      exact ⟨entry, hm, path⟩
    · intro ⟨entry, hm, path⟩
      exact ⟨_, (given _).mpr ⟨rfl, hm⟩, path⟩
  · intro m
    rw [plain.mem_reachable_iff]
    simp only [givenPlain]

/-! ### The small program, declared step by step -/

namespace Sample

/-- The class with its members, before any statement is added. -/
def members : CodeBase :=
  let named := (CodeBase.declareClass {} "Cell" {} false false).2
  let linked := (named.declareField cell "next" (.cls cell) false).2
  ((linked.declareMethod cell "main" [] (some []) .void true false).2.declareMethod
    cell "follow" [] (some []) (.cls cell) false false).2

def declaredCode : CodeBase :=
  (mainStmts ++ followStmts).foldl (fun code s => code.append s.method s.op false) members

theorem declared : declaredCode.Declared := by
  have heads : members.Declared :=
    (((CodeBase.Declared.empty.declareClass "Cell" {} false false).declareField
      cell "next" (.cls cell) false).declareMethod
      cell "main" [] (some []) .void true false).declareMethod
      cell "follow" [] (some []) (.cls cell) false false
  have accepted : ∀ s ∈ mainStmts ++ followStmts, s.op.written.check s.method = .ok s.op := by
    decide
  refine List.foldlRecOn _ _ heads fun code declared s hs => ?_
  have added : code.addStmt s.method s.op.written false =
      .ok (code.append s.method s.op false) := by
    rw [CodeBase.addStmt, accepted s hs]
    rfl
  exact declared.addStmt added

def declaredRules (selector : Selector) : Rules := { code := declaredCode, selector := selector }

end Sample

/-- In the sample program the first callee makes the same call again, on an object that arrives
later. At this head there are three edges, two entries of the worklist are pending, and a further
edge is still to come. -/
theorem callGraph_connected_from_entries_sample :
    ∃ st, (Sample.declaredRules (.callString 2)).headAfter? {} [Sample.main] 54 = some st ∧
      st.work.toList.length = 2 ∧ st.graph.edges.length = 3 ∧
      st.graph.reachable.length = 4 ∧ st.callGraph.reachable = [Sample.main, Sample.follow] ∧
      (∀ m ∈ st.graph.reachable,
        Relation.ReflTransGen (st.graph.Calls (.contextual Sample.declaredCode))
          ([], Sample.main) m) ∧
      Relation.ReflTransGen (st.callGraph.Calls (.plain Sample.declaredCode)) Sample.main
        Sample.follow := by
  have looks :
      (((Sample.declaredRules (.callString 2)).headAfter? {} [Sample.main] 54).map fun st =>
      (st.work.toList.length, st.graph.edges.length, st.graph.reachable.length,
        st.callGraph.reachable))
        = some (2, 3, 4, [Sample.main, Sample.follow]) := by decide +kernel
  obtain ⟨st, head, looks⟩ := Option.map_eq_some_iff.mp looks
  simp only [Prod.mk.injEq] at looks
  obtain ⟨work, edges, size, plain⟩ := looks
  obtain ⟨⟨-, -, reachable⟩, -, -, reachablePlain⟩ :=
    callGraph_connected_from_entries _ Sample.declared [Sample.main] 54 st (Or.inl head)
  refine ⟨st, head, work, edges, size, plain, ?_, ?_⟩
  · intro m hm
    obtain ⟨entry, only, path⟩ := (reachable m).mp hm
    rw [List.mem_singleton.mp only] at path
    exact path
  · have follow : Sample.follow ∈ st.callGraph.reachable :=
      plain ▸ List.mem_cons_of_mem _ List.mem_cons_self
    obtain ⟨entry, only, path⟩ := (reachablePlain Sample.follow).mp follow
    rw [List.mem_singleton.mp only] at path
    exact path

end StaticAnalysis.PointsTo
