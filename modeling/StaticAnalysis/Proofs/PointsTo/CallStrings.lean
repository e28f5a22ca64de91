import StaticAnalysis.Proofs.PointsTo.Reuse

/-!
# Contexts that are call strings

With call strings of depth `k` a callee is analysed under the context of its caller, with the call
site behind it, cut down to `k` elements. The caller's context has been cut down before, at every
call on the way to it.

* `CallGraph.CallPath` — the paths of call edges from the entries, with the call sites along them.
* `Rules.Derivable.site_of_called` — where a call edge comes from, for every choice of contexts.
* `callPath_of_reachable` — a reachable method is at the end of a path.
* `context_of_callPath` — the context there, by induction on the path: cutting down early makes no
  difference (`lastK_lastK_append`).

**Main statement** (`contexts_are_call_strings`): the context at the end of a path is made of its
last `k` call sites, and every reachable method is at the end of a path.
-/

namespace StaticAnalysis

/-- A path of call edges from an entry to a method, with the call sites along it. Each edge leaves a
call site of the method where the one before has arrived. -/
inductive CallGraph.CallPath {S M : Type} (layout : Layout S M) (g : CallGraph S M) :
    List S → M → Prop where
  | entry {m : M} (h : m ∈ g.entries) : CallPath layout g [] m
  | call {sites : List S} {m : M} {e : CallEdge S M} (before : CallPath layout g sites m)
      (site : e.site ∈ layout.sites m) (edge : e ∈ g.edges) :
      CallPath layout g (sites ++ [e.site]) e.callee

theorem lastK_suffix {α : Type} (xs : List α) (k : Int) : lastK xs k <:+ xs := by
  rw [lastK_eq_drop]
  exact List.drop_suffix _ xs

namespace PointsTo

section Paths

variable {rules : Rules} {entries : List Method} {st : State}

theorem site_of_call {code : CodeBase} {m : CtxMethod} {s : Stmt} {call : Call}
    (mem : s ∈ (code.body m.2).stmts) (hop : s.op = .call call) :
    (m.1, s) ∈ (Layout.contextual code).sites m := by
  have isCall : s.isCall = true := by simp [Stmt.isCall, Stmt.call?, hop]
  exact Layout.mem_sites_contextual.mpr ⟨rfl, List.mem_filter.mpr ⟨mem, isCall⟩⟩

/-- **Where a call edge comes from**: it leaves a call site of a reachable method, under the context
of this method, and enters the callee under the context that is chosen there. -/
theorem Rules.Derivable.site_of_called {e : CtxEdge} (h : rules.Derivable entries (.called e)) :
    ∃ m, rules.Derivable entries (.reached m) ∧ e.site ∈ (Layout.contextual rules.code).sites m ∧
      ∃ receiver, rules.selector.calleeContext e.site.1 e.site.2 receiver = some e.callee.1 := by
  cases h with
  | infer step known =>
    cases step with
    | @stmt m s f mem gives =>
      cases gives with
      | call hop static target chosen =>
        have reached := known (.reached m) List.mem_cons_self
        exact ⟨m, reached, site_of_call mem hop, none, chosen⟩
    | @onObject m s v o f mem awaits gives =>
      cases gives with
      | call hop target chosen =>
        have reached := known (.reached m) List.mem_cons_self
        exact ⟨m, reached, site_of_call mem hop, some o, chosen⟩
    | wiring gives => cases gives

/-! ### Paths to reachable methods -/

/-- A method that a fact is about, as far as calls are concerned, is at the end of a path. -/
def OnPath (code : CodeBase) (g : CallGraph CtxStmt CtxMethod) : Fact → Prop
  | .reached m => ∃ sites, g.CallPath (.contextual code) sites m
  | .called e => ∃ sites m, g.CallPath (.contextual code) sites m ∧
    e.site ∈ (Layout.contextual code).sites m
  | _ => True

/-- No inference leads away from the paths. -/
theorem closed_onPath (rest : AtRest rules entries st) :
    rules.Closed entries fun f => rules.Derivable entries f ∧ OnPath rules.code st.graph f := by
  intro premises f step known
  refine ⟨.infer step fun g hg => (known g hg).1, ?_⟩
  cases step with
  | entry hm => exact ⟨[], .entry ((rest.mem_entries _).mpr ⟨rfl, hm⟩)⟩
  | @stmt m s f mem gives =>
    obtain ⟨sites, path⟩ := (known (.reached m) List.mem_cons_self).2
    cases gives with
    | call hop static target chosen => exact ⟨sites, m, path, site_of_call mem hop⟩
    | _ => exact trivial
  | @onObject m s v o f mem awaits gives =>
    obtain ⟨sites, path⟩ := (known (.reached m) List.mem_cons_self).2
    cases gives with
    | call hop target chosen => exact ⟨sites, m, path, site_of_call mem hop⟩
    | _ => exact trivial
  | @callee e =>
    obtain ⟨called, sites, m, path, site⟩ := known (.called e) List.mem_cons_self
    have edge : e ∈ st.graph.edges := (rest.holds_iff (.called e)).mpr called
    exact ⟨sites ++ [e.site], path.call site edge⟩
  | wiring gives => cases gives <;> exact trivial
  | flow => exact trivial

/-- **Every reachable method is at the end of a path.** -/
theorem callPath_of_reachable (rest : AtRest rules entries st) {m : CtxMethod}
    (h : m ∈ st.graph.reachable) : ∃ sites, st.graph.CallPath (.contextual rules.code) sites m := by
  have derivable : rules.Derivable entries (.reached m) := (rest.holds_iff (.reached m)).mp h
  exact (derivable.mem_of_closed (closed_onPath rest)).2

/-! ### The contexts at their ends -/

/-- The call sites of a path as elements of a context. -/
def callString (sites : List CtxStmt) : Context := sites.map fun s => .site s.2

/-- **The context at the end of a path.** The caller's context is that of the path before the call;
it does not matter that it has been cut down already. -/
theorem context_of_callPath {k : Int} (selector : rules.selector = .callString k)
    (rest : AtRest rules entries st) {sites : List CtxStmt} {m : CtxMethod}
    (path : st.graph.CallPath (.contextual rules.code) sites m) :
    m.1 = lastK (callString sites) k := by
  induction path with
  | entry h =>
    rw [((rest.mem_entries _).mp h).1]
    exact (lastK_nil k).symm
  | @call sites m e before site edge ih =>
    have called : rules.Derivable entries (.called e) := (rest.holds_iff (.called e)).mp edge
    obtain ⟨-, -, -, receiver, chosen⟩ := called.site_of_called
    have context : e.site.1 = m.1 := by
      obtain ⟨s, -, hs⟩ := List.mem_map.mp site
      rw [← hs]
    rw [selector] at chosen
    calc e.callee.1
        = lastK (e.site.1 ++ [.site e.site.2]) k := (Option.some.inj chosen).symm
      _ = lastK (lastK (callString sites) k ++ [.site e.site.2]) k := by rw [context, ih]
      _ = lastK (callString sites ++ [.site e.site.2]) k := lastK_lastK_append (by omega) _ _
      _ = lastK (callString (sites ++ [e.site])) k := by
        rw [callString, callString, List.map_append]
        rfl

end Paths

/-- **Under call strings of depth `k`, contexts are call strings.** In the call graph of a finished
analysis:

* at the end of every path of call edges from an entry, the context is made of the last `k` call
  sites of the path: it ends as the path does, and its length is that of the path or `k`, whichever
  is less (nothing if `k` is not positive);
* every reachable method is at the end of such a path under its context. -/
theorem contexts_are_call_strings (rules : Rules) (k : Int) (entries : List Method) (n : Nat)
    (st : State) (selector : rules.selector = .callString k)
    (h : rules.analyze n {} entries = .finished st) :
    (∀ sites m, st.graph.CallPath (.contextual rules.code) sites m →
      m.1 = lastK (callString sites) k ∧ m.1 <:+ callString sites ∧
        m.1.length = min sites.length k.toNat) ∧
    ∀ m ∈ st.graph.reachable, ∃ sites, st.graph.CallPath (.contextual rules.code) sites m := by
  have rest : AtRest rules entries st := atRest_of_finished h
  refine ⟨?_, fun m hm => callPath_of_reachable rest hm⟩
  intro sites m path
  have context : m.1 = lastK (callString sites) k := context_of_callPath selector rest path
  refine ⟨context, ?_, ?_⟩
  · rw [context]
    exact lastK_suffix _ k
  · rw [context, length_lastK, callString, List.length_map]

namespace Sample

/-- The call of `follow` in `main`, and the one in `follow` itself. -/
def outer : Stmt :=
  ⟨⟨3, main⟩, .call ⟨.virtual, ⟨cell, "Cell follow()"⟩, cellVar main "b", [],
    cellVar main "c"⟩, false⟩

def inner : Stmt :=
  ⟨⟨1, follow⟩, .call ⟨.virtual, ⟨cell, "Cell follow()"⟩, cellVar follow "r", [],
    cellVar follow "s"⟩, false⟩

/-- From `main` into `follow`, and twice further into it. -/
theorem callPath_inner :
    ((rules (.callString 2)).analyze 90 {} [main]).state.graph.CallPath (.contextual code)
      [([], outer), ([.site outer], inner), ([.site outer, .site inner], inner)]
      ([.site inner, .site inner], follow) := by
  have start : ((rules (.callString 2)).analyze 90 {} [main]).state.graph.CallPath
      (.contextual code) [] ([], main) := .entry (by decide)
  have first := start.call (e := ⟨.virtual, ([], outer), ([.site outer], follow)⟩)
    (by decide) (by decide)
  have second := first.call
    (e := ⟨.virtual, ([.site outer], inner), ([.site outer, .site inner], follow)⟩)
    (by decide) (by decide)
  exact second.call
    (e := ⟨.virtual, ([.site outer, .site inner], inner), ([.site inner, .site inner], follow)⟩)
    (by decide) (by decide)

end Sample

/-- In the sample program `follow` calls itself. Behind its second call, the call in `main` has gone
from the context. -/
theorem contexts_are_call_strings_sample :
    ∃ st, (Sample.rules (.callString 2)).analyze 90 {} [Sample.main] = .finished st ∧
      ∃ sites m, st.graph.CallPath (.contextual Sample.code) sites m ∧ sites.length = 3 ∧
        m.1 = lastK (callString sites) 2 ∧ m.1.length = 2 := by
  have run :=
    Outcome.eq_finished (o := (Sample.rules (.callString 2)).analyze 90 {} [Sample.main]) ⟨_, rfl⟩
  obtain ⟨strings, -⟩ :=
    contexts_are_call_strings (Sample.rules (.callString 2)) 2 [Sample.main] 90 _ rfl run
  obtain ⟨context, -, length⟩ := strings _ _ Sample.callPath_inner
  exact ⟨_, run, _, _, Sample.callPath_inner, rfl, context, length⟩

end PointsTo

end StaticAnalysis
