import StaticAnalysis.Proofs.PointsTo.Interning
import StaticAnalysis.Proofs.PointsTo.Termination

/-!
# More context, fewer facts

Two analyses of one program that choose their contexts differently are compared through a map from
the contexts of the one to those of the other.

* `Coarsening fine coarse` — a map of contexts, one part for methods and one for objects, that
  commutes with the choices of both selectors. There is one from every depth to every smaller depth,
  from every selector to the insensitive one, and from chains of objects to chains of their types.
* `Coarsening.infers` — each inference of the fine analysis is mapped to an inference of the coarse
  one; so is each derivation (`Coarsening.derivable`). The coarse analysis may also know more code
  and more entries.
* `State.CoveredBy` — all that can be asked without naming a context: objects of variables and of
  static fields, reachable methods and call edges.

**Main statement** (`more_context_fewer_facts`): the results of an analysis are covered by those of
every coarser one.
-/

namespace StaticAnalysis

/-! ### The newest elements of a list -/

section LastK

variable {α β : Type}

theorem lastK_eq_drop (xs : List α) (k : Int) : lastK xs k = xs.drop (xs.length - k.toNat) := by
  unfold lastK
  split
  · rw [show k.toNat = 0 by omega, Nat.sub_zero, List.drop_length]
  · rfl

theorem lastK_nil (k : Int) : lastK ([] : List α) k = [] := by
  rw [lastK_eq_drop, List.drop_nil]

/-- Of the newest elements, the newest ones are kept. -/
theorem lastK_lastK {j k : Int} (h : j ≤ k) (xs : List α) : lastK (lastK xs k) j = lastK xs j := by
  rw [lastK_eq_drop (lastK xs k), length_lastK, lastK_eq_drop xs k, lastK_eq_drop xs j,
    List.drop_drop]
  congr 1
  omega

/-- Before a newer element only the others that will be kept matter. -/
theorem lastK_lastK_append {j k : Int} (h : k - 1 ≤ j) (xs : List α) (x : α) :
    lastK (lastK xs j ++ [x]) k = lastK (xs ++ [x]) k := by
  rw [lastK_eq_drop (lastK xs j ++ [x]), lastK_eq_drop (xs ++ [x]), List.length_append,
    List.length_append, length_lastK, lastK_eq_drop xs j, List.length_singleton]
  by_cases hk : k.toNat = 0
  · rw [hk, List.drop_of_length_le, List.drop_of_length_le]
    · simp
    · simp
      omega
  · rw [List.drop_append_of_le_length, List.drop_append_of_le_length, List.drop_drop]
    · congr 2
      omega
    · omega
    · rw [List.length_drop]
      omega

theorem lastK_map (f : α → β) (xs : List α) (k : Int) :
    lastK (xs.map f) k = (lastK xs k).map f := by
  rw [lastK_eq_drop, lastK_eq_drop, List.length_map, List.map_drop]

end LastK

/-! ### Maps of contexts -/

/-- The kinds of selectors that have a depth. -/
def Selector.kinds : List (Int → Selector) := [.callString, .objectChain, .typeChain]

/-- One selector tells at least as many contexts apart as another: contexts of the same kind are cut
off later, or not dropped altogether, or made of objects instead of their types. -/
inductive Selector.Finer : Selector → Selector → Prop where
  | depth {kind : Int → Selector} (hkind : kind ∈ kinds) {j k : Int} (h : j ≤ k) :
      Finer (kind k) (kind j)
  | insensitive {kind : Int → Selector} (hkind : kind ∈ kinds) (k : Int) :
      Finer (kind k) .insensitive
  | types (k : Int) : Finer (.objectChain k) (.typeChain k)

theorem Selector.mem_kinds {kind : Int → Selector} :
    kind ∈ kinds ↔ kind = .callString ∨ kind = .objectChain ∨ kind = .typeChain := by
  simp [kinds]

theorem Selector.ne_undecided {kind : Int → Selector} (hkind : kind ∈ kinds) (k j : Int) :
    kind k ≠ .undecided j := by
  rcases mem_kinds.mp hkind with rfl | rfl | rfl <;> exact fun h => nomatch h

/-- Both selectors choose contexts for callees. -/
theorem Selector.Finer.decides {fine coarse : Selector} (h : fine.Finer coarse) :
    (∀ k, fine ≠ .undecided k) ∧ ∀ k, coarse ≠ .undecided k := by
  cases h with
  | @depth kind hkind j k h => exact ⟨ne_undecided hkind k, ne_undecided hkind j⟩
  | insensitive hkind k => exact ⟨ne_undecided hkind k, fun _ h => (nomatch h)⟩
  | types k => exact ⟨fun _ h => (nomatch h), fun _ h => (nomatch h)⟩

/-- The same abstract object under a mapped context. -/
def HeapObj.mapContext (f : Context → Context) (o : HeapObj) : HeapObj := ⟨f o.context, o.alloc⟩

/-- An element of an object chain as an element of a type chain: the class in whose code the object
was allocated. -/
def Element.typed : Element → Element
  | .object a => .cls a.site.method.owner
  | e => e

/-- A map from the contexts of one selector to those of another that commutes with their choices. -/
structure Coarsening (fine coarse : Selector) where
  method : Context → Context
  heap : Context → Context
  method_nil : method [] = []
  heapContext_method : ∀ c, coarse.heapContext (method c) = heap (fine.heapContext c)
  calleeContext_method : ∀ c s receiver,
    coarse.calleeContext (method c) s (receiver.map (HeapObj.mapContext heap))
      = (fine.calleeContext c s receiver).map method

namespace Coarsening

/-- Contexts are cut off earlier, those of objects one element before those of methods. -/
def depth {kind : Int → Selector} (hkind : kind ∈ Selector.kinds) {j k : Int} (h : j ≤ k) :
    Coarsening (kind k) (kind j) where
  method c := lastK c j
  heap c := lastK c (j - 1)
  method_nil := lastK_nil j
  heapContext_method c := by
    have heap : ∀ i d, (kind i).heapContext d = lastK d (i - 1) := by
      rcases Selector.mem_kinds.mp hkind with rfl | rfl | rfl <;> exact fun _ _ => rfl
    rw [heap, heap, lastK_lastK (by omega), lastK_lastK (by omega)]
  calleeContext_method c s receiver := by
    -- what is kept of a context before its newest element does not depend on when it was cut off
    have keep : ∀ (i : Int) (d : Context) (e : Element), j - 1 ≤ i →
        lastK (lastK d i ++ [e]) j = lastK (lastK (d ++ [e]) k) j := by
      intro i d e hi
      rw [lastK_lastK_append hi, lastK_lastK h]
    rcases Selector.mem_kinds.mp hkind with rfl | rfl | rfl
    · exact congrArg some (keep j c (.site s) (by omega))
    · cases receiver with
      | none => rfl
      | some o => exact congrArg some (keep (j - 1) o.context (.object o.alloc) (Int.le_refl _))
    · cases receiver with
      | none => rfl
      | some o =>
        exact congrArg some (keep (j - 1) o.context (.cls o.alloc.site.method.owner)
          (Int.le_refl _))

/-- All contexts are forgotten. -/
def insensitive {sel : Selector} (decides : ∀ k, sel ≠ .undecided k) :
    Coarsening sel .insensitive where
  method _ := []
  heap _ := []
  method_nil := rfl
  heapContext_method _ := rfl
  calleeContext_method c s receiver := by
    cases h : sel.calleeContext c s receiver with
    | some d => rfl
    | none =>
      obtain ⟨k, hk⟩ := PointsTo.calleeContext_eq_none h
      exact absurd hk (decides k)

/-- Objects are replaced by types. -/
def types (k : Int) : Coarsening (.objectChain k) (.typeChain k) where
  method c := c.map Element.typed
  heap c := c.map Element.typed
  method_nil := rfl
  heapContext_method c := lastK_map Element.typed c (k - 1)
  calleeContext_method c s receiver := by
    cases receiver with
    | none => rfl
    | some o =>
      show some (lastK (o.context.map Element.typed ++ [.cls o.alloc.site.method.owner]) k)
        = some ((lastK (o.context ++ [.object o.alloc]) k).map Element.typed)
      rw [← lastK_map, List.map_append]
      rfl

theorem of_finer {fine coarse : Selector} (h : fine.Finer coarse) :
    Nonempty (Coarsening fine coarse) := by
  cases h with
  | depth hkind h => exact ⟨depth hkind h⟩
  | insensitive hkind k => exact ⟨insensitive (Selector.ne_undecided hkind k)⟩
  | types k => exact ⟨types k⟩

end Coarsening

/-! ### Inferences under a coarsening -/

/-- One code base contains the statements of another and resolves calls alike. -/
structure CodeBase.PartOf (code code' : CodeBase) : Prop where
  stmts : ∀ m, ∀ s ∈ (code.body m).stmts, s ∈ (code'.body m).stmts
  resolveCallee : ∀ type call, code'.resolveCallee type call = code.resolveCallee type call

theorem CodeBase.PartOf.refl (code : CodeBase) : code.PartOf code :=
  ⟨fun _ _ => id, fun _ _ => rfl⟩

theorem CodeBase.PartOf.returnVars {code code' : CodeBase} (h : code.PartOf code') {m : Method}
    {v : Var} (hv : v ∈ (code.body m).returnVars) : v ∈ (code'.body m).returnVars := by
  obtain ⟨s, hs, returned⟩ := List.mem_filterMap.mp hv
  exact List.mem_filterMap.mpr ⟨s, h.stmts m s hs, returned⟩

namespace Coarsening

open PointsTo

section Maps

variable {fine coarse : Selector} (φ : Coarsening fine coarse)

def object (o : HeapObj) : HeapObj := o.mapContext φ.heap

def pointer : Pointer → Pointer
  | .var c v => .var (φ.method c) v
  | .static f => .static f
  | .member o f => .member (φ.object o) f
  | .element o => .element (φ.object o)

def stmt (s : CtxStmt) : CtxStmt := (φ.method s.1, s.2)

def edge (e : CtxEdge) : CtxEdge := ⟨e.kind, φ.stmt e.site, (φ.method e.callee.1, e.callee.2)⟩

def fact : Fact → Fact
  | .reached m => .reached (φ.method m.1, m.2)
  | .called e => .called (φ.edge e)
  | .flows p q => .flows (φ.pointer p) (φ.pointer q)
  | .pointsTo p o => .pointsTo (φ.pointer p) (φ.object o)

end Maps

variable {fine coarse : Rules} (φ : Coarsening fine.selector coarse.selector)

/-- The context of a callee in the coarse analysis. -/
theorem chosen {s : CtxStmt} {receiver : Option HeapObj} {context : Context}
    (h : fine.selector.calleeContext s.1 s.2 receiver = some context) :
    coarse.selector.calleeContext (φ.stmt s).1 (φ.stmt s).2 (receiver.map φ.object)
      = some (φ.method context) := by
  have commutes := φ.calleeContext_method s.1 s.2 receiver
  rw [h] at commutes
  exact commutes

variable (part : fine.code.PartOf coarse.code)

include part

/-- A callee is found in the coarse analysis, too. -/
theorem target {type : Ty} {call : Call} {callee : Method}
    (h : fine.code.resolveCallee type call = some callee) :
    coarse.code.resolveCallee type call = some callee := by
  rw [part.resolveCallee]
  exact h

theorem gives {s : CtxStmt} {f : Fact} (h : fine.Gives s f) :
    coarse.Gives (φ.stmt s) (φ.fact f) := by
  cases h with
  | @alloc target type hop =>
    have mapped : φ.object (fine.newObj s target type) = coarse.newObj (φ.stmt s) target type := by
      rw [Rules.newObj, Rules.newObj, stmt, φ.heapContext_method]
      rfl
    show coarse.Gives _ (.pointsTo _ (φ.object (fine.newObj s target type)))
    rw [mapped]
    exact .alloc hop
  | copy hop ref => exact .copy hop ref
  | loadStatic hop ref static => exact .loadStatic hop ref static
  | storeStatic hop ref static => exact .storeStatic hop ref static
  | call hop static found context => exact .call hop static (target part found) (φ.chosen context)

theorem givesOn {s : CtxStmt} {o : HeapObj} {f : Fact} (h : fine.GivesOn s o f) :
    coarse.GivesOn (φ.stmt s) (φ.object o) (φ.fact f) := by
  cases h with
  | load hop => exact .load hop
  | store hop => exact .store hop
  | loadElement hop => exact .loadElement hop
  | storeElement hop => exact .storeElement hop
  | call hop found context => exact .call hop (target part found) (φ.chosen context)
  | receiver hop found context this =>
    exact .receiver hop (target part found) (φ.chosen context) this

theorem wires {e : CtxEdge} {f : Fact} (h : fine.Wires e f) :
    coarse.Wires (φ.edge e) (φ.fact f) := by
  cases h with
  | argument hop pair ref => exact .argument hop pair ref
  | result hop result ref returned => exact .result hop result ref (part.returnVars returned)

variable {entries entries' : List Method} (more : ∀ m ∈ entries, m ∈ entries')

include more

/-- **Inferences are mapped to inferences.** -/
theorem infers {premises : List Fact} {f : Fact} (h : fine.Infers entries premises f) :
    coarse.Infers entries' (premises.map φ.fact) (φ.fact f) := by
  cases h with
  | @entry m hm =>
    show coarse.Infers entries' [] (.reached (φ.method [], m))
    rw [φ.method_nil]
    exact .entry (more m hm)
  | @stmt m s f mem h => exact .stmt (part.stmts m.2 s mem) (φ.gives part h)
  | @onObject m s v o f mem awaits h =>
    exact .onObject (part.stmts m.2 s mem) awaits (φ.givesOn part h)
  | callee => exact .callee
  | wiring h => exact .wiring (φ.wires part h)
  | flow => exact .flow

/-- Derivations are mapped to derivations. -/
theorem derivable {f : Fact} (h : fine.Derivable entries f) :
    coarse.Derivable entries' (φ.fact f) := by
  induction h with
  | infer step known ih =>
    refine .infer (φ.infers part more step) ?_
    intro g hg
    obtain ⟨g', hg', rfl⟩ := List.mem_map.mp hg
    exact ih g' hg'

/-- What a fine analysis has found out, a coarse one has found out in its own contexts. -/
theorem holds {n n' : Nat} {st st' : State} (h : fine.analyze n {} entries = .finished st)
    (h' : coarse.analyze n' {} entries' = .finished st') {f : Fact} (hf : st.Holds f) :
    st'.Holds (φ.fact f) :=
  (φ.derivable part more (derivable_of_finished h hf)).mem_of_closed (closed_of_finished h')

end Coarsening

/-! ### Results without contexts -/

namespace PointsTo

/-- All that can be asked of a result without naming contexts is found in another result, too. -/
structure State.CoveredBy (st st' : State) : Prop where
  vars : ∀ v, st.varObjects v ⊆ st'.varObjects v
  statics : ∀ f, (st.lookup (.static f)).map HeapObj.alloc ⊆
    (st'.lookup (.static f)).map HeapObj.alloc
  methods : st.callGraph.reachable ⊆ st'.callGraph.reachable
  calls : st.callGraph.edges ⊆ st'.callGraph.edges

end PointsTo

open PointsTo

theorem Coarsening.coveredBy {fine coarse : Rules} (φ : Coarsening fine.selector coarse.selector)
    (part : fine.code.PartOf coarse.code) {entries entries' : List Method}
    (more : ∀ m ∈ entries, m ∈ entries') {n n' : Nat} {st st' : State}
    (h : fine.analyze n {} entries = .finished st)
    (h' : coarse.analyze n' {} entries' = .finished st') : st.CoveredBy st' := by
  have holds : ∀ f, st.Holds f → st'.Holds (φ.fact f) := fun f => φ.holds part more h h'
  have interned := interned_of_finished h
  have interned' := interned_of_finished h'
  refine ⟨?_, ?_, ?_, ?_⟩
  · intro v a ha
    obtain ⟨c, o, ho, rfl⟩ := interned.mem_varObjects.mp ha
    exact interned'.mem_varObjects.mpr ⟨_, _, holds (.pointsTo (.var c v) o) ho, rfl⟩
  · intro f a ha
    rw [interned.lookup_eq_objectsOf] at ha
    rw [interned'.lookup_eq_objectsOf]
    obtain ⟨o, ho, rfl⟩ := List.mem_map.mp ha
    exact List.mem_map.mpr ⟨_, holds (.pointsTo (.static f) o) ho, rfl⟩
  · intro m hm
    obtain ⟨c, hc⟩ := st.graph.mem_reachable_dropContexts.mp hm
    exact st'.graph.mem_reachable_dropContexts.mpr ⟨_, holds (.reached (c, m)) hc⟩
  · intro e he
    obtain ⟨e', he', rfl⟩ := st.graph.mem_edges_dropContexts.mp he
    exact st'.graph.mem_edges_dropContexts.mpr ⟨_, holds (.called e') he', rfl⟩

/-- **More context never adds facts.** Take two analyses of the same code from the same entries,
each with its own orders, where one selects its contexts more finely. Whatever the finer one says of
a variable, a static field, the reachable methods or the calls, contexts dropped, the coarser one
says, too. Both have results if all statements are known and leave no operand open. -/
theorem more_context_fewer_facts (fine coarse : Rules) (entries : List Method)
    (same : coarse.code = fine.code) (finer : fine.selector.Finer coarse.selector) :
    (∀ n n' st st', fine.analyze n {} entries = .finished st →
      coarse.analyze n' {} entries = .finished st' → st.CoveredBy st') ∧
    ((∀ m, ∀ s ∈ (fine.code.body m).stmts, s.isUnknown = false ∧ s.isOpen = false) →
      ∃ n st st', fine.analyze n {} entries = .finished st ∧
        coarse.analyze n {} entries = .finished st') := by
  refine ⟨?_, ?_⟩
  · intro n n' st st' h h'
    obtain ⟨φ⟩ := Coarsening.of_finer finer
    have part : fine.code.PartOf coarse.code := by
      rw [same]
      exact .refl _
    exact φ.coveredBy part (fun m => id) h h'
  · intro complete
    have complete' : ∀ m, ∀ s ∈ (coarse.code.body m).stmts, s.isUnknown = false ∧
        s.isOpen = false := by
      rw [same]
      exact complete
    obtain ⟨n, st, run⟩ := analyze_finishes fine entries finer.decides.1 complete
    obtain ⟨n', st', run'⟩ := analyze_finishes coarse entries finer.decides.2 complete'
    exact ⟨max n n', st, st', run _ (Nat.le_max_left n n'), run' _ (Nat.le_max_right n n')⟩

/-- The sample program under chains of two call sites and of one. -/
theorem more_context_fewer_facts_sample :
    (∃ st st', (Sample.rules (.callString 2)).analyze 90 {} [Sample.main] = .finished st ∧
      (Sample.rules (.callString 1)).analyze 90 {} [Sample.main] = .finished st' ∧
      st.CoveredBy st') ∧
    ∃ n st st', (Sample.rules (.callString 2)).analyze n {} [Sample.main] = .finished st ∧
      (Sample.rules (.callString 1)).analyze n {} [Sample.main] = .finished st' := by
  have finer : Selector.Finer (.callString 2) (.callString 1) :=
    .depth (Selector.mem_kinds.mpr (Or.inl rfl)) (by decide)
  have complete : ∀ s ∈ Sample.code.allStmts, s.isUnknown = false ∧ s.isOpen = false := by decide
  obtain ⟨covered, results⟩ := more_context_fewer_facts (Sample.rules (.callString 2))
    (Sample.rules (.callString 1)) [Sample.main] rfl finer
  refine ⟨⟨_, _, rfl, rfl, covered 90 90 _ _ rfl rfl⟩, results ?_⟩
  intro m s hs
  exact complete s (CodeBase.mem_allStmts hs)

end StaticAnalysis
