import StaticAnalysis.Proofs.PointsTo.Inference

/-!
# The facts of a program are finitely many

A program has finitely many statements and methods, and a selector cuts every context down to its
depth. So all facts that an analysis can derive lie in one finite list, which is written down here.

* `contextsUpTo` — the contexts of bounded length over given elements; `mem_contextsUpTo`.
* `Scope` — all that the facts of a program can speak of, from statements up to pointers.
* `Scope.facts` — **the universe of facts**.

**Main statement** (`Derivable.mem_facts`): every derivable fact is in the universe, whatever cycles
the calls, the heap and the classes of the program have.
-/

namespace StaticAnalysis

theorem Table.mem_values_of_get? {κ α : Type} [DecidableEq κ] {t : Table κ α} {k : κ} {a : α}
    (h : t.get? k = some a) : a ∈ t.values := by
  obtain ⟨es⟩ := t
  show a ∈ es.map Prod.snd
  have hfind : Table.find k es = some a := h
  clear h
  induction es with
  | nil => simp [Table.find] at hfind
  | cons e es ih =>
    obtain ⟨k', b⟩ := e
    rw [Table.find] at hfind
    split at hfind
    · cases hfind
      exact List.mem_cons_self
    · exact List.mem_cons_of_mem _ (ih hfind)

/-- What a table gives under a key, if it is not the fallback, is one of its values. -/
theorem Table.getD_cases {κ α : Type} [DecidableEq κ] (t : Table κ α) (k : κ) (fallback : α) :
    t.getD k fallback = fallback ∨ t.getD k fallback ∈ t.values := by
  cases h : t.get? k with
  | none =>
    refine Or.inl ?_
    rw [Table.getD, h]
    rfl
  | some a =>
    refine Or.inr ?_
    rw [Table.getD, h]
    exact Table.mem_values_of_get? h

theorem mem_of_mem_lastK {α : Type} {xs : List α} {k : Int} {a : α} (h : a ∈ lastK xs k) :
    a ∈ xs := by
  rw [lastK] at h
  split at h
  · exact absurd h List.not_mem_nil
  · exact List.mem_of_mem_drop h

/-! ### Contexts of bounded length -/

/-- All contexts of at most the given length whose elements are among the given ones. -/
def contextsUpTo (elements : List Element) : Nat → List Context
  | 0 => [[]]
  | n + 1 => [] :: elements.flatMap fun e => (contextsUpTo elements n).map fun c => e :: c

theorem mem_contextsUpTo {elements : List Element} {n : Nat} {c : Context} :
    c ∈ contextsUpTo elements n ↔ c.length ≤ n ∧ ∀ e ∈ c, e ∈ elements := by
  induction n generalizing c with
  | zero =>
    rw [contextsUpTo, List.mem_singleton]
    constructor
    · rintro rfl
      exact ⟨Nat.le_refl 0, fun e he => absurd he List.not_mem_nil⟩
    · rintro ⟨hlen, -⟩
      exact List.length_eq_zero_iff.mp (Nat.le_zero.mp hlen)
  | succ n ih =>
    cases c with
    | nil => simp [contextsUpTo]
    | cons e c =>
      have htail : e :: c ∈ contextsUpTo elements (n + 1)
          ↔ e ∈ elements ∧ c ∈ contextsUpTo elements n := by
        simp [contextsUpTo]
      rw [htail, ih, List.length_cons, List.forall_mem_cons]
      constructor
      · rintro ⟨he, hlen, hc⟩
        exact ⟨by omega, he, hc⟩
      · rintro ⟨hlen, he, hc⟩
        exact ⟨he, by omega, hc⟩

/-! ### Dispatch finds declared methods -/

namespace CodeBase

variable {code : CodeBase}

/-- All statements of all bodies. -/
def allStmts (code : CodeBase) : List Stmt := code.bodies.values.flatMap Body.stmts

theorem mem_allStmts {m : Method} {s : Stmt} (h : s ∈ (code.body m).stmts) : s ∈ code.allStmts := by
  rcases code.bodies.getD_cases m {} with hnone | hsome
  · rw [body, hnone] at h
    exact absurd h List.not_mem_nil
  · exact List.mem_flatMap.mpr ⟨_, hsome, h⟩

theorem mem_declaredMethods_of_dispatch {c : Class} {subsignature : String} {m : Method}
    (h : code.dispatch c subsignature = some m) : m ∈ code.declaredMethods := by
  obtain ⟨d, -, hd⟩ := List.exists_of_findSome?_eq_some h
  obtain ⟨hdeclared, -⟩ := Option.filter_eq_some_iff.mp hd
  rcases code.classes.getD_cases d {} with hnone | hsome
  · rw [declared?, info, hnone] at hdeclared
    exact absurd hdeclared (by simp [Table.get?, Table.find])
  · exact List.mem_flatMap.mpr ⟨_, hsome, Table.mem_values_of_get? hdeclared⟩

theorem mem_declaredMethods_of_resolveCallee {receiver : Ty} {call : Call} {m : Method}
    (h : code.resolveCallee receiver call = some m) : m ∈ code.declaredMethods := by
  unfold resolveCallee at h
  split at h
  · exact mem_declaredMethods_of_dispatch h
  · exact mem_declaredMethods_of_dispatch h
  · split at h
    · exact mem_declaredMethods_of_dispatch h
    · exact mem_declaredMethods_of_dispatch h
    · contradiction
  · split at h
    · exact mem_declaredMethods_of_dispatch h
    · exact mem_declaredMethods_of_dispatch h
    · contradiction
  · contradiction

end CodeBase

/-- The field that a statement accesses. -/
def Stmt.field? (s : Stmt) : Option Field :=
  match s.op with
  | .loadField _ _ field => some field
  | .storeField _ field _ => some field
  | _ => none

namespace PointsTo

/-! ### What the facts of a program can speak of -/

namespace Scope

variable (rules : Rules) (entries : List Method)

/-- Methods are entries or have been dispatched to. -/
def methods : List Method := entries ++ rules.code.declaredMethods

/-- The operands of statements, and the variables that calls fill. -/
def operands : List Operand :=
  none :: (rules.code.allStmts.flatMap fun s => s.defines? :: s.uses)
    ++ (methods rules entries).flatMap fun m => (m.params ++ m.this?.toList).map some

def fields : List Field := rules.code.allStmts.filterMap Stmt.field?

def allocs : List Alloc := rules.code.allStmts.filterMap Stmt.alloc?

/-- What contexts can be made of. -/
def elements : List Element :=
  rules.code.allStmts.map .site ++ (allocs rules).map .object
    ++ (allocs rules).map fun a => .cls a.site.method.owner

def contexts : List Context := contextsUpTo (elements rules) rules.selector.depth.toNat

def objects : List HeapObj :=
  (contexts rules).flatMap fun c => (allocs rules).map fun a => ⟨c, a⟩

def pointers : List Pointer :=
  ((contexts rules).flatMap fun c => (operands rules entries).map (.var c))
    ++ (fields rules).map .static
    ++ ((objects rules).flatMap fun o => (fields rules).map (.member o))
    ++ (objects rules).map .element

def ctxMethods : List CtxMethod :=
  (contexts rules).flatMap fun c => (methods rules entries).map fun m => (c, m)

def ctxStmts : List CtxStmt :=
  (contexts rules).flatMap fun c => rules.code.allStmts.map fun s => (c, s)

def edges : List CtxEdge :=
  CallKind.all.flatMap fun kind => (ctxStmts rules).flatMap fun s =>
    (ctxMethods rules entries).map fun m => ⟨kind, s, m⟩

/-- The universe of facts. -/
def facts : List Fact :=
  (ctxMethods rules entries).map .reached ++ (edges rules entries).map .called
    ++ ((pointers rules entries).flatMap fun p => (pointers rules entries).map (.flows p))
    ++ ((pointers rules entries).flatMap fun p => (objects rules).map (.pointsTo p))

variable {rules entries}

theorem mem_objects {o : HeapObj} :
    o ∈ objects rules ↔ o.context ∈ contexts rules ∧ o.alloc ∈ allocs rules := by
  obtain ⟨c, a⟩ := o
  simp [objects]

theorem mem_var {c : Context} {v : Operand} :
    .var c v ∈ pointers rules entries ↔ c ∈ contexts rules ∧ v ∈ operands rules entries := by
  simp [pointers]

theorem mem_static {f : Field} : .static f ∈ pointers rules entries ↔ f ∈ fields rules := by
  simp [pointers]

theorem mem_member {o : HeapObj} {f : Field} :
    .member o f ∈ pointers rules entries ↔ o ∈ objects rules ∧ f ∈ fields rules := by
  simp [pointers]

theorem mem_element {o : HeapObj} : .element o ∈ pointers rules entries ↔ o ∈ objects rules := by
  simp [pointers]

theorem mem_ctxMethods {m : CtxMethod} :
    m ∈ ctxMethods rules entries ↔ m.1 ∈ contexts rules ∧ m.2 ∈ methods rules entries := by
  obtain ⟨c, m⟩ := m
  simp [ctxMethods]

theorem mem_edges {e : CtxEdge} :
    e ∈ edges rules entries ↔ (e.site.1 ∈ contexts rules ∧ e.site.2 ∈ rules.code.allStmts) ∧
      e.callee ∈ ctxMethods rules entries := by
  constructor
  · intro he
    simp only [edges, ctxStmts, List.mem_flatMap, List.mem_map] at he
    obtain ⟨kind, -, s', ⟨c, hc, s, hs, rfl⟩, m, hm, rfl⟩ := he
    exact ⟨⟨hc, hs⟩, hm⟩
  · rintro ⟨⟨hc, hs⟩, hm⟩
    have hkind : e.kind ∈ CallKind.all := by cases e.kind <;> decide
    simp only [edges, ctxStmts, List.mem_flatMap, List.mem_map]
    exact ⟨e.kind, hkind, e.site, ⟨e.site.1, hc, e.site.2, hs, rfl⟩, e.callee, hm, rfl⟩

theorem mem_reached {m : CtxMethod} :
    .reached m ∈ facts rules entries ↔ m ∈ ctxMethods rules entries := by
  simp [facts]

theorem mem_called {e : CtxEdge} : .called e ∈ facts rules entries ↔ e ∈ edges rules entries := by
  simp [facts]

theorem mem_flows {p q : Pointer} :
    .flows p q ∈ facts rules entries ↔ p ∈ pointers rules entries ∧ q ∈ pointers rules entries := by
  simp [facts]

theorem mem_pointsTo {p : Pointer} {o : HeapObj} :
    .pointsTo p o ∈ facts rules entries ↔ p ∈ pointers rules entries ∧ o ∈ objects rules := by
  simp [facts]

/-! ### Contexts stay in scope -/

theorem nil_mem_contexts : [] ∈ contexts rules :=
  mem_contextsUpTo.mpr ⟨Nat.zero_le _, fun _ he => absurd he List.not_mem_nil⟩

/-- A context cut down to the depth of the selector is in scope if its elements are. -/
theorem lastK_mem_contexts {c : Context} {k : Int} (hk : k = rules.selector.depth)
    (hc : ∀ e ∈ c, e ∈ elements rules) : lastK c k ∈ contexts rules := by
  refine mem_contextsUpTo.mpr ⟨?_, fun e he => hc e (mem_of_mem_lastK he)⟩
  rw [length_lastK, hk]
  exact Nat.min_le_right _ _

theorem heapContext_mem {c : Context} (hc : c ∈ contexts rules) :
    rules.selector.heapContext c ∈ contexts rules := by
  obtain ⟨hlen, helem⟩ := mem_contextsUpTo.mp hc
  have cut : ∀ k : Int, lastK c k ∈ contexts rules := by
    intro k
    refine mem_contextsUpTo.mpr ⟨?_, fun e he => helem e (mem_of_mem_lastK he)⟩
    rw [length_lastK]
    exact Nat.le_trans (Nat.min_le_left _ _) hlen
  cases hsel : rules.selector with
  | insensitive => exact nil_mem_contexts
  | callString k => exact cut (k - 1)
  | objectChain k => exact cut (k - 1)
  | typeChain k => exact cut (k - 1)
  | undecided k => exact cut (k - 1)

/-- The context of a callee is in scope if the caller and the receiver object are. -/
theorem calleeContext_mem {c d : Context} {s : Stmt} {receiver : Option HeapObj}
    (hc : c ∈ contexts rules) (hs : s ∈ rules.code.allStmts)
    (ho : ∀ o, receiver = some o → o ∈ objects rules)
    (h : rules.selector.calleeContext c s receiver = some d) : d ∈ contexts rules := by
  have helem : ∀ {c : Context}, c ∈ contexts rules → ∀ e ∈ c, e ∈ elements rules :=
    fun hc => (mem_contextsUpTo.mp hc).2
  have snoc : ∀ {c : Context} {e : Element}, (∀ e ∈ c, e ∈ elements rules) → e ∈ elements rules →
      ∀ e' ∈ c ++ [e], e' ∈ elements rules := by
    intro c e hc he e' he'
    rcases List.mem_append.mp he' with h | h
    · exact hc e' h
    · rw [List.mem_singleton] at h
      rw [h]
      exact he
  have hsite : .site s ∈ elements rules := by
    simp only [elements, List.mem_append, List.mem_map]
    exact Or.inl (Or.inl ⟨s, hs, rfl⟩)
  have hobject : ∀ {a : Alloc}, a ∈ allocs rules → .object a ∈ elements rules := by
    intro a ha
    simp only [elements, List.mem_append, List.mem_map]
    exact Or.inl (Or.inr ⟨a, ha, rfl⟩)
  have hclass : ∀ {a : Alloc}, a ∈ allocs rules → .cls a.site.method.owner ∈ elements rules := by
    intro a ha
    simp only [elements, List.mem_append, List.mem_map]
    exact Or.inr ⟨a, ha, rfl⟩
  cases hsel : rules.selector with
  | insensitive =>
    rw [hsel] at h
    cases h
    exact nil_mem_contexts
  | callString k =>
    rw [hsel] at h
    cases h
    exact lastK_mem_contexts (by rw [hsel]; rfl) (snoc (helem hc) hsite)
  | objectChain k =>
    rw [hsel] at h
    cases receiver with
    | none =>
      cases h
      exact hc
    | some o =>
      obtain ⟨hctx, halloc⟩ := mem_objects.mp (ho o rfl)
      cases h
      exact lastK_mem_contexts (by rw [hsel]; rfl) (snoc (helem hctx) (hobject halloc))
  | typeChain k =>
    rw [hsel] at h
    cases receiver with
    | none =>
      cases h
      exact hc
    | some o =>
      obtain ⟨hctx, halloc⟩ := mem_objects.mp (ho o rfl)
      cases h
      exact lastK_mem_contexts (by rw [hsel]; rfl) (snoc (helem hctx) (hclass halloc))
  | undecided k =>
    rw [hsel] at h
    cases h

/-! ### Derivable facts stay in scope -/

theorem defines_mem {s : Stmt} {v : Operand} (hs : s ∈ rules.code.allStmts) (hv : s.defines? = v) :
    v ∈ operands rules entries := by
  simp only [operands, List.cons_append, List.mem_cons, List.mem_append, List.mem_flatMap]
  exact Or.inr (Or.inl ⟨s, hs, Or.inl hv.symm⟩)

theorem uses_mem {s : Stmt} {v : Operand} (hs : s ∈ rules.code.allStmts) (hv : v ∈ s.uses) :
    v ∈ operands rules entries := by
  simp only [operands, List.cons_append, List.mem_cons, List.mem_append, List.mem_flatMap]
  exact Or.inr (Or.inl ⟨s, hs, Or.inr hv⟩)

theorem param_mem {m : Method} {v : Var} (hm : m ∈ methods rules entries) (hv : v ∈ m.params) :
    some v ∈ operands rules entries := by
  simp only [operands, List.cons_append, List.mem_cons, List.mem_append, List.mem_flatMap,
    List.mem_map]
  exact Or.inr (Or.inr ⟨m, hm, v, Or.inl hv, rfl⟩)

theorem this_mem {m : Method} {v : Var} (hm : m ∈ methods rules entries) (hv : m.this? = some v) :
    some v ∈ operands rules entries := by
  simp only [operands, List.cons_append, List.mem_cons, List.mem_append, List.mem_flatMap,
    List.mem_map]
  exact Or.inr (Or.inr ⟨m, hm, v, Or.inr (by simp [hv]), rfl⟩)

theorem field_mem {s : Stmt} {f : Field} (hs : s ∈ rules.code.allStmts) (hf : s.field? = some f) :
    f ∈ fields rules :=
  List.mem_filterMap.mpr ⟨s, hs, hf⟩

theorem callee_mem {receiver : Ty} {call : Call} {m : Method}
    (h : rules.code.resolveCallee receiver call = some m) : m ∈ methods rules entries :=
  List.mem_append_right _ (CodeBase.mem_declaredMethods_of_resolveCallee h)

/-- What a statement gives is in scope. -/
theorem gives_mem {s : CtxStmt} {f : Fact} (hc : s.1 ∈ contexts rules)
    (hs : s.2 ∈ rules.code.allStmts) (h : rules.Gives s f) : f ∈ facts rules entries := by
  cases h with
  | @alloc target type h =>
    have halloc : ⟨s.2.site, target, type⟩ ∈ allocs rules :=
      List.mem_filterMap.mpr ⟨s.2, hs, by simp [Stmt.alloc?, h]⟩
    rw [mem_pointsTo, mem_var, mem_objects]
    exact ⟨⟨hc, defines_mem hs (by simp [Stmt.defines?, h, Op.defines?])⟩,
      heapContext_mem hc, halloc⟩
  | copy h ref =>
    rw [mem_flows, mem_var, mem_var]
    exact ⟨⟨hc, uses_mem hs (by simp [Stmt.uses, h, Op.uses])⟩,
      hc, defines_mem hs (by simp [Stmt.defines?, h, Op.defines?])⟩
  | loadStatic h ref static =>
    rw [mem_flows, mem_static, mem_var]
    exact ⟨field_mem hs (by simp [Stmt.field?, h]),
      hc, defines_mem hs (by simp [Stmt.defines?, h, Op.defines?])⟩
  | storeStatic h ref static =>
    rw [mem_flows, mem_static, mem_var]
    exact ⟨⟨hc, uses_mem hs (by simp [Stmt.uses, h, Op.uses])⟩,
      field_mem hs (by simp [Stmt.field?, h])⟩
  | call h static target chosen =>
    rw [mem_called, mem_edges, mem_ctxMethods]
    exact ⟨⟨hc, hs⟩, calleeContext_mem hc hs (by simp) chosen, callee_mem target⟩

/-- What a waiting statement gives on an object is in scope. -/
theorem givesOn_mem {s : CtxStmt} {o : HeapObj} {f : Fact} (hc : s.1 ∈ contexts rules)
    (hs : s.2 ∈ rules.code.allStmts) (ho : o ∈ objects rules) (h : rules.GivesOn s o f) :
    f ∈ facts rules entries := by
  have receiver : ∀ o', some o = some o' → o' ∈ objects rules := by
    intro o' heq
    cases heq
    exact ho
  cases h with
  | load h =>
    rw [mem_flows, mem_member, mem_var]
    exact ⟨⟨ho, field_mem hs (by simp [Stmt.field?, h])⟩,
      hc, defines_mem hs (by simp [Stmt.defines?, h, Op.defines?])⟩
  | store h =>
    rw [mem_flows, mem_member, mem_var]
    exact ⟨⟨hc, uses_mem hs (by simp [Stmt.uses, h, Op.uses])⟩,
      ho, field_mem hs (by simp [Stmt.field?, h])⟩
  | loadElement h =>
    rw [mem_flows, mem_element, mem_var]
    exact ⟨ho, hc, defines_mem hs (by simp [Stmt.defines?, h, Op.defines?])⟩
  | storeElement h =>
    rw [mem_flows, mem_element, mem_var]
    exact ⟨⟨hc, uses_mem hs (by simp [Stmt.uses, h, Op.uses])⟩, ho⟩
  | call h target chosen =>
    rw [mem_called, mem_edges, mem_ctxMethods]
    exact ⟨⟨hc, hs⟩, calleeContext_mem hc hs receiver chosen, callee_mem target⟩
  | receiver h target chosen this =>
    rw [mem_pointsTo, mem_var]
    exact ⟨⟨calleeContext_mem hc hs receiver chosen, this_mem (callee_mem target) this⟩, ho⟩

/-- What a call edge connects is in scope. -/
theorem wires_mem {e : CtxEdge} {f : Fact} (he : e ∈ edges rules entries) (h : rules.Wires e f) :
    f ∈ facts rules entries := by
  obtain ⟨⟨hc, hs⟩, hcallee⟩ := mem_edges.mp he
  obtain ⟨hd, hm⟩ := mem_ctxMethods.mp hcallee
  cases h with
  | argument h pair ref =>
    obtain ⟨harg, hparam⟩ := List.of_mem_zip pair
    rw [mem_flows, mem_var, mem_var]
    exact ⟨⟨hc, uses_mem hs (by simp [Stmt.uses, h, Op.uses, harg])⟩, hd, param_mem hm hparam⟩
  | @result call r v h result ref returned =>
    obtain ⟨s, hmem, hreturned⟩ := List.mem_filterMap.mp returned
    have hv : some v ∈ s.uses := by
      rw [Stmt.returned?] at hreturned
      split at hreturned
      · next value hop =>
        subst hreturned
        simp [Stmt.uses, hop, Op.uses, Op.operands]
      · contradiction
    rw [mem_flows, mem_var, mem_var]
    exact ⟨⟨hd, uses_mem (CodeBase.mem_allStmts hmem) hv⟩,
      hc, defines_mem hs (by simp [Stmt.defines?, h, Op.defines?, result])⟩

end Scope

/-- The universe is closed under inference. -/
theorem closed_facts (rules : Rules) (entries : List Method) :
    rules.Closed entries fun f => f ∈ Scope.facts rules entries := by
  intro premises f step known
  cases step with
  | entry hm =>
    rw [Scope.mem_reached, Scope.mem_ctxMethods]
    exact ⟨Scope.nil_mem_contexts, List.mem_append_left _ hm⟩
  | @stmt m s _ mem gives =>
    have hm :=
      Scope.mem_ctxMethods.mp (Scope.mem_reached.mp (known (.reached m) List.mem_cons_self))
    exact Scope.gives_mem hm.1 (CodeBase.mem_allStmts mem) gives
  | @onObject m s v o _ mem awaits gives =>
    have hm :=
      Scope.mem_ctxMethods.mp (Scope.mem_reached.mp (known (.reached m) List.mem_cons_self))
    have ho := Scope.mem_pointsTo.mp
      (known (.pointsTo (.var m.1 v) o) (List.mem_cons_of_mem _ List.mem_cons_self))
    exact Scope.givesOn_mem hm.1 (CodeBase.mem_allStmts mem) ho.2 gives
  | @callee e =>
    have he := Scope.mem_edges.mp (Scope.mem_called.mp (known (.called e) List.mem_cons_self))
    exact Scope.mem_reached.mpr he.2
  | @wiring e _ gives =>
    exact Scope.wires_mem (Scope.mem_called.mp (known (.called e) List.mem_cons_self)) gives
  | @flow p q o =>
    have hf := Scope.mem_flows.mp (known (.flows p q) List.mem_cons_self)
    have ho := Scope.mem_pointsTo.mp
      (known (.pointsTo p o) (List.mem_cons_of_mem _ List.mem_cons_self))
    exact Scope.mem_pointsTo.mpr ⟨hf.2, ho.2⟩

/-- **All derivable facts lie in the universe.** -/
theorem Rules.Derivable.mem_facts {rules : Rules} {entries : List Method} {f : Fact}
    (h : rules.Derivable entries f) : f ∈ Scope.facts rules entries :=
  h.mem_of_closed (closed_facts rules entries)

end PointsTo

end StaticAnalysis
