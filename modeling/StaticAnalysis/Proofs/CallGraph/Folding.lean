import Mathlib.Data.List.Basic
import Mathlib.Data.List.Induction
import StaticAnalysis.Proofs.CallGraph.Construction
import StaticAnalysis.Proofs.Code.Declarations

/-!
# Folding call graphs and dropping contexts

`CallGraph.fold` runs over the list of edges, `CallGraph.calleesOfMethod` over the statements of a
body and the index by call site, and `CallGraph.dropContexts` makes a new list of edges. The three
agree.

* `FirstOccurrences` — a list as an ordered set, in the order of first occurrence; `distinct` makes
  it.
* `Table.collect` — the step of a fold; `Table.foldl_collect_distinct` says that repeated steps
  change nothing.
* `fold_dropContexts`, `mem_fold` — a fold sees nothing of contexts, and lists the callees of all
  edges of a caller.

**Main statement** (`dropContexts_commutes_with_folding`): however a graph under contexts was built,
its fold is that of the plain graph, and it gives every method the callees that its call statements
have under some context.
-/

namespace StaticAnalysis

/-! ### Ordered sets by first occurrence -/

/-- `ys` has the elements of `xs`, each once, in the order in which they first occur. -/
structure FirstOccurrences {α : Type} [DecidableEq α] (xs ys : List α) : Prop where
  mem : ∀ a, a ∈ ys ↔ a ∈ xs
  order : ys.Pairwise fun a b => xs.idxOf a < xs.idxOf b

section Distinct

variable {α : Type} [DecidableEq α]

theorem distinct_append_singleton (xs : List α) (a : α) :
    distinct (xs ++ [a]) = adjoin (distinct xs) a := by
  rw [distinct, adjoinAll, List.foldl_append]
  rfl

theorem firstOccurrences_distinct (xs : List α) : FirstOccurrences xs (distinct xs) := by
  refine ⟨fun a => mem_distinct, ?_⟩
  induction xs using List.reverseRecOn with
  | nil => exact List.Pairwise.nil
  | append_singleton xs a ih =>
    have earlier : (distinct xs).Pairwise fun b c => (xs ++ [a]).idxOf b < (xs ++ [a]).idxOf c := by
      refine ih.imp_of_mem ?_
      intro b c hb hc before
      rwa [List.idxOf_append_of_mem (mem_distinct.mp hb),
        List.idxOf_append_of_mem (mem_distinct.mp hc)]
    rw [distinct_append_singleton]
    by_cases known : a ∈ xs
    · rwa [adjoin_of_mem (mem_distinct.mpr known)]
    · rw [adjoin_of_not_mem (mt mem_distinct.mp known), List.pairwise_append]
      refine ⟨earlier, List.pairwise_singleton _ _, ?_⟩
      intro b hb c hc
      rw [List.mem_singleton.mp hc, List.idxOf_append_of_mem (mem_distinct.mp hb),
        List.idxOf_append_of_notMem known]
      have inside := List.idxOf_lt_length_of_mem (mem_distinct.mp hb)
      omega

end Distinct

/-! ### Tables of ordered sets -/

namespace Table

variable {κ α : Type} [DecidableEq κ]

/-- Storing what a key has already changes nothing. -/
theorem set_of_get? {t : Table κ α} {k : κ} {a : α} (h : t.get? k = some a) : t.set k a = t := by
  obtain ⟨entries⟩ := t
  have same : replace k a entries = entries := by
    change find k entries = some a at h
    induction entries with
    | nil => cases h
    | cons e entries ih =>
      obtain ⟨l, b⟩ := e
      rw [find] at h
      rw [replace]
      by_cases hl : l = k
      · rw [if_pos hl] at h ⊢
        cases h
        rfl
      · rw [if_neg hl] at h ⊢
        rw [ih h]
  exact congrArg Table.mk same

variable [DecidableEq α]

/-- Adds an element to the ordered set that is stored under a key. -/
def collect (t : Table κ (List α)) (p : κ × α) : Table κ (List α) :=
  t.set p.1 (adjoin (t.getD p.1 []) p.2)

theorem collect_of_mem {t : Table κ (List α)} {p : κ × α} (h : p.2 ∈ t.getD p.1 []) :
    t.collect p = t := by
  rw [collect, adjoin_of_mem h]
  cases found : t.get? p.1 with
  | none =>
    rw [getD, found] at h
    exact absurd h List.not_mem_nil
  | some as =>
    rw [getD, found]
    exact set_of_get? found

theorem mem_getD_collect {t : Table κ (List α)} {p : κ × α} {k : κ} {a : α} :
    a ∈ (t.collect p).getD k [] ↔ a ∈ t.getD k [] ∨ (k, a) = p := by
  rw [collect, getD, get?_set]
  by_cases hk : k = p.1
  · subst hk
    rw [if_pos rfl, Option.getD_some, mem_adjoin, Prod.ext_iff]
    simp
  · rw [if_neg hk, Prod.ext_iff]
    simp [getD, hk]

theorem mem_getD_foldl_collect {ps : List (κ × α)} {t : Table κ (List α)} {k : κ} {a : α} :
    a ∈ (ps.foldl collect t).getD k [] ↔ a ∈ t.getD k [] ∨ (k, a) ∈ ps := by
  induction ps generalizing t with
  | nil => simp
  | cons p ps ih => rw [List.foldl_cons, ih, mem_getD_collect, List.mem_cons, or_assoc]

/-- Elements that come again leave a table as it is. -/
theorem foldl_collect_distinct {β : Type} [DecidableEq β] (f : β → κ × α) (bs : List β) :
    ((distinct bs).map f).foldl collect empty = (bs.map f).foldl collect empty := by
  induction bs using List.reverseRecOn with
  | nil => rfl
  | append_singleton bs b ih =>
    rw [distinct_append_singleton, List.map_append, List.foldl_append]
    by_cases known : b ∈ bs
    · have stored : (f b).2 ∈ ((bs.map f).foldl collect empty).getD (f b).1 [] :=
        mem_getD_foldl_collect.mpr (Or.inr (List.mem_map_of_mem known))
      rw [adjoin_of_mem (mem_distinct.mpr known), ih]
      exact (collect_of_mem stored).symm
    · rw [adjoin_of_not_mem (mt mem_distinct.mp known), List.map_append, List.foldl_append, ih]

end Table

/-! ### Folding -/

namespace CallGraph

section Folds

variable {S M : Type} (layout : Layout S M)

/-- The plain caller and callee of an edge. -/
def callOf (e : CallEdge S M) : Method × Method :=
  ((layout.stmt e.site).method, layout.method e.callee)

theorem fold_eq (g : CallGraph S M) :
    g.fold layout = (g.edges.map (callOf layout)).foldl Table.collect Table.empty := by
  rw [fold, List.foldl_map]
  rfl

/-- Under a caller stand the callees of all its edges. -/
theorem mem_fold (g : CallGraph S M) {m x : Method} :
    x ∈ (g.fold layout).getD m [] ↔
      ∃ e ∈ g.edges, (layout.stmt e.site).method = m ∧ layout.method e.callee = x := by
  rw [fold_eq, Table.mem_getD_foldl_collect, List.mem_map]
  simp only [callOf, Prod.mk.injEq]
  constructor
  · rintro (hx | h)
    · exact absurd hx List.not_mem_nil
    · exact h
  · exact Or.inr

end Folds

/-- A fold sees nothing of contexts: edges that differ in these only are one call. -/
theorem fold_dropContexts (code : CodeBase) (g : CallGraph CtxStmt CtxMethod) :
    g.dropContexts.fold (.plain code) = g.fold (.contextual code) := by
  rw [fold_eq, fold_eq, edges_dropContexts, Table.foldl_collect_distinct, List.map_map]
  rfl

/-- In a plain graph over the calls of a code base, the callees of a method are those of its
edges. -/
theorem mem_calleesOfMethod_plain {code : CodeBase} (declared : code.Declared)
    {g : CallGraph Stmt Method} (built : g.Built)
    (sites : ∀ e ∈ g.edges, ∃ m, e.site ∈ (code.body m).calls) {m x : Method} :
    x ∈ g.calleesOfMethod (.plain code) m ↔ x ∈ (g.fold (.plain code)).getD m [] := by
  rw [built.mem_calleesOfMethod, mem_fold]
  refine exists_congr fun e => and_congr_right fun he => ?_
  obtain ⟨n, standing⟩ := sites e he
  exact and_congr_left fun _ => declared.mem_calls_iff standing

/-- Under contexts, the callees of a method are those of the edges that leave it under the same
context. -/
theorem mem_calleesOfMethod_contextual {code : CodeBase} (declared : code.Declared)
    {g : CallGraph CtxStmt CtxMethod} (built : g.Built)
    (sites : ∀ e ∈ g.edges, ∃ m, e.site.2 ∈ (code.body m).calls) {c : Context} {m : Method}
    {x : CtxMethod} :
    x ∈ g.calleesOfMethod (.contextual code) (c, m) ↔
      ∃ e ∈ g.edges, e.site.1 = c ∧ e.site.2.method = m ∧ e.callee = x := by
  rw [built.mem_calleesOfMethod]
  refine exists_congr fun e => and_congr_right fun he => ?_
  obtain ⟨n, standing⟩ := sites e he
  rw [Layout.mem_sites_contextual, and_assoc, declared.mem_calls_iff standing]

/-- **Dropping contexts commutes with folding.** However a graph under contexts was built:

* the plain graph has its entries, reachable methods and edges without their contexts, each once,
  reachable methods and edges in the order in which they first occur;
* both graphs fold to the same table, and export the same;
* if the sites are calls of the code base, then the fold gives every method what its call statements
  call in the plain graph, which is what they call under some context. -/
theorem dropContexts_commutes_with_folding (code : CodeBase) (declared : code.Declared)
    (g : CallGraph CtxStmt CtxMethod) (built : g.Built) :
    (g.dropContexts.entries.Nodup ∧ ∀ m, m ∈ g.dropContexts.entries ↔ ∃ c, (c, m) ∈ g.entries) ∧
    FirstOccurrences (g.reachable.map Prod.snd) g.dropContexts.reachable ∧
    FirstOccurrences (g.edges.map CallEdge.dropContexts) g.dropContexts.edges ∧
    g.fold (.contextual code) = g.dropContexts.fold (.plain code) ∧
    g.exported (.contextual code) = g.dropContexts.exported (.plain code) ∧
    ((∀ e ∈ g.edges, ∃ m, e.site.2 ∈ (code.body m).calls) → ∀ m x,
      (x ∈ g.dropContexts.calleesOfMethod (.plain code) m ↔
        x ∈ (g.dropContexts.fold (.plain code)).getD m []) ∧
      (x ∈ g.dropContexts.calleesOfMethod (.plain code) m ↔
        ∃ c, ∃ y ∈ g.calleesOfMethod (.contextual code) (c, m), y.2 = x)) := by
  refine ⟨⟨g.built_dropContexts.nodup.1, ?_⟩, ?_, ?_, (fold_dropContexts code g).symm, ?_, ?_⟩
  · intro m
    rw [entries_dropContexts, mem_distinct, List.mem_map]
    exact ⟨fun ⟨⟨c, _⟩, hm, same⟩ => ⟨c, same ▸ hm⟩, fun ⟨c, hm⟩ => ⟨(c, m), hm, rfl⟩⟩
  · rw [reachable_dropContexts]
    exact firstOccurrences_distinct _
  · rw [edges_dropContexts]
    exact firstOccurrences_distinct _
  · rw [exported, exported, fold_dropContexts]
  · intro sites m x
    have plain : ∀ e ∈ g.dropContexts.edges, ∃ m, e.site ∈ (code.body m).calls := by
      intro e he
      obtain ⟨e', he', rfl⟩ := g.mem_edges_dropContexts.mp he
      exact sites e' he'
    have callees :=
      mem_calleesOfMethod_plain declared (built_dropContexts g) plain (m := m) (x := x)
    refine ⟨callees, ?_⟩
    rw [callees, fold_dropContexts, mem_fold]
    simp only [mem_calleesOfMethod_contextual declared built sites]
    constructor
    · rintro ⟨e, he, rfl, rfl⟩
      exact ⟨e.site.1, e.callee, ⟨e, he, rfl, rfl, rfl⟩, rfl⟩
    · rintro ⟨c, y, ⟨e, he, -, rfl, rfl⟩, rfl⟩
      exact ⟨e, he, rfl, rfl⟩

/-! A method that calls itself behind another one: the second call stands under two contexts, and
the first has edges of two kinds. -/

namespace Relay

def relay : Class := ⟨0, "Relay", false, false⟩

def send : Method := ⟨0, "send", relay, [], [], .void, true, false⟩

def forward : Method := ⟨1, "forward", relay, [], [], .void, true, false⟩

def call : Call := ⟨.static, forward.target, none, [], none⟩

def first : Stmt := ⟨⟨0, send⟩, .call call, false⟩

def second : Stmt := ⟨⟨0, forward⟩, .call call, false⟩

/-- The methods without their statements. -/
def heads : CodeBase :=
  let named := (CodeBase.declareClass {} "Relay" {} false false).2
  ((named.declareMethod relay "send" [] (some []) .void true false).2.declareMethod
    relay "forward" [] (some []) .void true false).2

def code : CodeBase := (heads.append send (.call call) false).append forward (.call call) false

theorem declared : code.Declared := by
  have methods : heads.Declared :=
    ((CodeBase.Declared.empty.declareClass "Relay" {} false false).declareMethod
      relay "send" [] (some []) .void true false).declareMethod
      relay "forward" [] (some []) .void true false
  have sent : heads.addStmt send (.call .static forward.target none [] none) false =
      .ok (heads.append send (.call call) false) := rfl
  have forwarded : (heads.append send (.call call) false).addStmt forward
      (.call .static forward.target none [] none) false = .ok code := rfl
  exact (methods.addStmt sent).addStmt forwarded

/-- The edges, in the order in which they are added. -/
def edges : List (CallEdge CtxStmt CtxMethod) :=
  [⟨.static, ([], first), ([.site first], forward)⟩,
    ⟨.static, ([.site first], second), ([.site second], forward)⟩,
    ⟨.special, ([], first), ([], forward)⟩,
    ⟨.static, ([.site second], second), ([.site second], forward)⟩]

def graph : CallGraph CtxStmt CtxMethod :=
  edges.foldl (fun g e => (g.addEdge e).2) ((addEntry {} ([], send)).addReachable ([], send)).2

theorem built : graph.Built :=
  List.foldlRecOn edges _ ((Built.empty.addEntry ([], send)).addReachable ([], send))
    fun _ built e _ => built.addEdge e

end Relay

theorem dropContexts_commutes_with_folding_relay :
    Relay.graph.edges.length = 4 ∧ Relay.graph.dropContexts.edges.length = 3 ∧
    Relay.graph.fold (.contextual Relay.code) = Relay.graph.dropContexts.fold (.plain Relay.code) ∧
    (Relay.forward ∈ Relay.graph.dropContexts.calleesOfMethod (.plain Relay.code) Relay.forward ↔
      ∃ c, ∃ y ∈ Relay.graph.calleesOfMethod (.contextual Relay.code) (c, Relay.forward),
        y.2 = Relay.forward) := by
  have sites : ∀ e ∈ Relay.graph.edges, ∃ m, e.site.2 ∈ (Relay.code.body m).calls := by
    have stands : ∀ e ∈ Relay.graph.edges, e.site.2 ∈ (Relay.code.body e.site.2.method).calls := by
      decide +kernel
    exact fun e he => ⟨_, stands e he⟩
  obtain ⟨-, -, -, folds, -, callees⟩ :=
    dropContexts_commutes_with_folding Relay.code Relay.declared Relay.graph Relay.built
  exact ⟨by decide +kernel, by decide +kernel, folds, (callees sites Relay.forward Relay.forward).2⟩

end CallGraph

end StaticAnalysis
