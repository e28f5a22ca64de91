import Mathlib.Data.List.Sort
import StaticAnalysis.ControlFlow.Icfg
import StaticAnalysis.Proofs.ControlFlow.Adjacency
import StaticAnalysis.Proofs.Dataflow.WorkList

/-!
# What linking control-flow graphs gives

The nodes and edges of an interprocedural graph that was put together from the control-flow graphs
of methods.

* `Icfg.get?_cfgs_joined`, `Icfg.nodes_joined` — the graphs of the methods, and their nodes in
  order.
* `Icfg.outgoing` — the edges that one node makes; `Icfg.links_eq` says that a linked graph has
  those of all nodes.
* `Icfg.Link` — the edges, by kind; `Icfg.link_of_mem` says that there are no others.
* `Icfg.Coherent` — the edges are kept alike by source and by target, and lie between nodes.
  `Icfg.coherent_link` says it of linked graphs.
* `Icfg.precedes_of_source_entry` — edges that leave the entry of a method stay in it, so that their
  targets come later in the order of the nodes. This is where entries have to be other nodes than
  exits and must not be calls.
* `sortBy_eq_insertionSort` — the order of the methods of a given graph can be evaluated.
-/

namespace StaticAnalysis

/-- Where an element is inserted: behind those that it is not below. -/
theorem orderedInsert_append {α : Type} {cmp : α → α → Ordering} {a : α} {front rest : List α}
    (skipped : ∀ b ∈ front, ¬ (cmp a b).isLE) (stopped : ∀ b ∈ rest, (cmp a b).isLE) :
    (front ++ rest).orderedInsert (fun a b => (cmp a b).isLE) a = front ++ a :: rest := by
  induction front with
  | nil =>
    cases rest with
    | nil => rfl
    | cons b rest => exact if_pos (stopped b List.mem_cons_self)
  | cons b front ih =>
    rw [List.cons_append, List.orderedInsert_cons, if_neg (skipped b List.mem_cons_self),
      ih fun c hc => skipped c (List.mem_cons_of_mem b hc)]
    rfl

/-- Sorting gives the same as inserting the elements one by one, which can be evaluated. -/
theorem sortBy_eq_insertionSort {α : Type} {cmp : α → α → Ordering} [Std.TransCmp cmp]
    (xs : List α) : sortBy cmp xs = xs.insertionSort fun a b => (cmp a b).isLE := by
  induction xs with
  | nil => exact List.mergeSort_nil
  | cons a xs ih =>
    obtain ⟨front, rest, whole, before, skipped⟩ :=
      @List.mergeSort_cons α (fun a b => (cmp a b).isLE)
        (fun _ _ _ => Std.TransCmp.isLE_trans) isLE_total a xs
    have sorted : (sortBy cmp (a :: xs)).Pairwise fun a b => (cmp a b).isLE := pairwise_sortBy _
    rw [sortBy, whole] at sorted
    have stopped := (List.pairwise_cons.mp (List.pairwise_append.mp sorted).2.1).1
    rw [List.insertionSort_cons, ← ih, sortBy, sortBy, whole, before]
    exact (orderedInsert_append (fun b hb => by simpa using skipped b hb) stopped).symm

theorem Table.keys_foldl_set {κ α : Type} [DecidableEq κ] (f : κ → α) (ks : List κ)
    (t : Table κ α) : (ks.foldl (fun t k => t.set k (f k)) t).keys = adjoinAll t.keys ks := by
  induction ks generalizing t with
  | nil => rfl
  | cons k ks ih =>
    rw [List.foldl_cons, ih, Table.keys_set]
    rfl

namespace Icfg

variable {N M : Type} [DecidableEq N]

/-- The edges that leave a node and those that enter one are the same, and lie between nodes that
are listed once. -/
structure Coherent (g : Icfg N M) : Prop where
  nodup : g.nodes.Nodup
  mem_edgesInto : ∀ e n, e ∈ g.edgesInto n ↔ e ∈ g.edgesOutOf e.source ∧ e.target = n
  source_edgesOutOf : ∀ e n, e ∈ g.edgesOutOf n → e.source = n
  ends : ∀ e n, e ∈ g.edgesInto n → e.source ∈ g.nodes ∧ n ∈ g.nodes

/-- A node is a successor of the sources of the edges that enter it. -/
theorem Coherent.mem_succsOf {g : Icfg N M} (h : g.Coherent) {m n : N} :
    n ∈ g.succsOf m ↔ ∃ e ∈ g.edgesInto n, e.source = m := by
  unfold succsOf
  rw [mem_distinct, List.mem_map]
  constructor
  · rintro ⟨e, he, rfl⟩
    have source := h.source_edgesOutOf e m he
    exact ⟨e, (h.mem_edgesInto e e.target).mpr ⟨source ▸ he, rfl⟩, source⟩
  · rintro ⟨e, he, rfl⟩
    obtain ⟨out, target⟩ := (h.mem_edgesInto e n).mp he
    exact ⟨e, out, target⟩

/-! ### Adding edges and graphs -/

theorem edgesOutOf_foldl_addEdge (links : List (IcfgEdge N M)) (g : Icfg N M) (n : N) :
    (links.foldl addEdge g).edgesOutOf n
      = g.edgesOutOf n ++ links.filter fun e => decide (e.source = n) := by
  induction links generalizing g with
  | nil => simp
  | cons e links ih =>
    rw [List.foldl_cons, ih]
    show (g.outEdges.push e.source e).getD n [] ++ _ = _
    rw [Table.getD_push, List.filter_cons]
    by_cases hn : n = e.source
    · simp [hn, edgesOutOf]
    · simp [hn, Ne.symm hn, edgesOutOf]

theorem edgesInto_foldl_addEdge (links : List (IcfgEdge N M)) (g : Icfg N M) (n : N) :
    (links.foldl addEdge g).edgesInto n
      = g.edgesInto n ++ links.filter fun e => decide (e.target = n) := by
  induction links generalizing g with
  | nil => simp
  | cons e links ih =>
    rw [List.foldl_cons, ih]
    show (g.inEdges.push e.target e).getD n [] ++ _ = _
    rw [Table.getD_push, List.filter_cons]
    by_cases hn : n = e.target
    · simp [hn, edgesInto]
    · simp [hn, Ne.symm hn, edgesInto]

/-- Edges change nothing else. -/
theorem foldl_addEdge (links : List (IcfgEdge N M)) (g : Icfg N M) :
    (links.foldl addEdge g).nodes = g.nodes ∧ (links.foldl addEdge g).cfgs = g.cfgs ∧
      (links.foldl addEdge g).entries = g.entries := by
  induction links generalizing g with
  | nil => exact ⟨rfl, rfl, rfl⟩
  | cons e links ih => exact ih (g.addEdge e)

/-- What graphs of methods add. -/
theorem foldl_addCfg [DecidableEq M] (cfgOf : M → Cfg N) (ms : List M) (g : Icfg N M) :
    ms.foldl (fun g m => g.addCfg m (cfgOf m)) g =
      { g with
        cfgs := ms.foldl (fun t m => t.set m (cfgOf m)) g.cfgs
        containers :=
          ms.foldl (fun t m => (cfgOf m).nodes.foldl (fun t n => t.set n m) t) g.containers } := by
  induction ms generalizing g with
  | nil => rfl
  | cons m ms ih => exact ih (g.addCfg m (cfgOf m))

/-! ### The edges of a node -/

section Outgoing

variable {cfgOf : M → Cfg N} {succs : List N} {n : N} {callees : List M} {e : IcfgEdge N M}

/-- The edges to a node `r` behind the call `n`: past the callees, and back from each of them. -/
def behind (cfgOf : M → Cfg N) (n : N) (callees : List M) (r : N) : List (IcfgEdge N M) :=
  ⟨.callToReturn, n, r, some n, none⟩ ::
    callees.map fun c => ⟨.ret, (cfgOf c).exit, r, some n, some c⟩

/-- The edges that a node makes, if it leads to `succs` and calls `callees`. -/
def outgoing (cfgOf : M → Cfg N) (succs : List N) (n : N) (callees : List M) :
    List (IcfgEdge N M) :=
  match callees with
  | [] => succs.map fun r => ⟨.normal, n, r, none, none⟩
  | _ => succs.flatMap (behind cfgOf n callees) ++
    callees.map fun c => ⟨.call, n, (cfgOf c).entry, some n, some c⟩

omit [DecidableEq N] in
theorem mem_outgoing : e ∈ outgoing cfgOf succs n callees ↔
    (callees = [] ∧ ∃ r ∈ succs, e = ⟨.normal, n, r, none, none⟩) ∨
    (∃ c ∈ callees, ∃ r ∈ succs, e = ⟨.callToReturn, n, r, some n, none⟩) ∨
    (∃ c ∈ callees, ∃ r ∈ succs, e = ⟨.ret, (cfgOf c).exit, r, some n, some c⟩) ∨
    ∃ c ∈ callees, e = ⟨.call, n, (cfgOf c).entry, some n, some c⟩ := by
  cases callees with
  | nil => simp [outgoing, eq_comm]
  | cons c cs =>
    simp only [outgoing, behind, List.mem_append, List.mem_flatMap, List.mem_cons]
    constructor
    · rintro (⟨r, hr, rfl | he⟩ | he)
      · exact Or.inr (Or.inl ⟨c, Or.inl rfl, r, hr, rfl⟩)
      · obtain ⟨c', hc', rfl⟩ := List.mem_map.mp he
        exact Or.inr (Or.inr (Or.inl ⟨c', List.mem_cons.mp hc', r, hr, rfl⟩))
      · obtain ⟨c', hc', rfl⟩ := List.mem_map.mp he
        exact Or.inr (Or.inr (Or.inr ⟨c', List.mem_cons.mp hc', rfl⟩))
    · rintro (⟨none, -⟩ | ⟨c', hc', r, hr, rfl⟩ | ⟨c', hc', r, hr, rfl⟩ | ⟨c', hc', rfl⟩)
      · exact absurd none (List.cons_ne_nil c cs)
      · exact Or.inl ⟨r, hr, Or.inl rfl⟩
      · exact Or.inl ⟨r, hr, Or.inr (List.mem_map.mpr ⟨c', List.mem_cons.mpr hc', rfl⟩)⟩
      · exact Or.inr (List.mem_map.mpr ⟨c', List.mem_cons.mpr hc', rfl⟩)

end Outgoing

/-! ### Linking -/

section Linking

variable [DecidableEq M] (entries methods : List M) (cfgOf : M → Cfg N) (calleesAt : N → List M)

/-- The graphs of methods side by side, without edges. -/
def joined : Icfg N M := methods.foldl (fun g m => g.addCfg m (cfgOf m)) { entries := entries }

/-- The edges between the graphs of methods. -/
def links : List (IcfgEdge N M) :=
  let g := joined entries methods cfgOf
  methods.flatMap fun m =>
    let cfg := (g.cfgs.get? m).getD (cfgOf m)
    cfg.nodes.flatMap fun n => g.linksOf cfg n ((calleesAt n).filter g.cfgs.contains)

theorem link_eq : link methods cfgOf calleesAt { entries := entries }
    = (links entries methods cfgOf calleesAt).foldl addEdge (joined entries methods cfgOf) := rfl

variable {entries methods cfgOf calleesAt}

theorem get?_cfgs_joined (m : M) :
    (joined entries methods cfgOf).cfgs.get? m = if m ∈ methods then some (cfgOf m) else none := by
  rw [joined, foldl_addCfg, Table.get?_foldl_set]
  rfl

theorem contains_cfgs_joined (m : M) :
    (joined entries methods cfgOf).cfgs.contains m = true ↔ m ∈ methods := by
  rw [Table.contains, get?_cfgs_joined]
  split
  · next hm => exact iff_of_true rfl hm
  · next hm => exact iff_of_false Bool.false_ne_true hm

theorem nodes_joined :
    (joined entries methods cfgOf).nodes = distinct (methods.flatMap fun m => (cfgOf m).nodes) := by
  have keys : ∀ (ms : List M) (t : Table N M),
      (ms.foldl (fun t m => (cfgOf m).nodes.foldl (fun t n => t.set n m) t) t).keys
        = adjoinAll t.keys (ms.flatMap fun m => (cfgOf m).nodes) := by
    intro ms
    induction ms with
    | nil => exact fun _ => rfl
    | cons m ms ih =>
      intro t
      rw [List.foldl_cons, ih, Table.keys_foldl_set (fun _ => m), List.flatMap_cons]
      exact (List.foldl_append ..).symm
  rw [joined, foldl_addCfg]
  exact keys methods _

/-- There are no edges yet. -/
theorem edges_joined (n : N) :
    (joined entries methods cfgOf).edgesOutOf n = [] ∧
      (joined entries methods cfgOf).edgesInto n = [] := by
  rw [joined, foldl_addCfg]
  exact ⟨rfl, rfl⟩

theorem entries_joined : (joined entries methods cfgOf).entries = entries := by
  rw [joined, foldl_addCfg]

/-- Among graphs side by side, callees that have one are linked with it. -/
theorem linksOf_joined (cfg : Cfg N) (n : N) {callees : List M}
    (known : ∀ c ∈ callees, c ∈ methods) :
    (joined entries methods cfgOf).linksOf cfg n callees =
      outgoing cfgOf (cfg.succsOf n) n callees := by
  have get : ∀ c ∈ callees, (joined entries methods cfgOf).cfgs.get? c = some (cfgOf c) := by
    intro c hc
    rw [get?_cfgs_joined, if_pos (known c hc)]
  have exits : ∀ r, callees.filterMap (fun c => ((joined entries methods cfgOf).exitOf? c).map
      fun exit => (⟨.ret, exit, r, some n, some c⟩ : IcfgEdge N M)) =
      callees.map fun c => ⟨.ret, (cfgOf c).exit, r, some n, some c⟩ := by
    intro r
    rw [← List.filterMap_eq_map]
    refine List.filterMap_congr fun c hc => ?_
    rw [exitOf?, get c hc]
    rfl
  have enters : callees.filterMap (fun c => ((joined entries methods cfgOf).entryOf? c).map
      fun entry => (⟨.call, n, entry, some n, some c⟩ : IcfgEdge N M)) =
      callees.map fun c => ⟨.call, n, (cfgOf c).entry, some n, some c⟩ := by
    rw [← List.filterMap_eq_map]
    refine List.filterMap_congr fun c hc => ?_
    rw [entryOf?, get c hc]
    rfl
  cases callees with
  | nil => rfl
  | cons c cs =>
    simp only [linksOf, outgoing, exits, enters]
    rfl

/-- All nodes of all methods make the edges. -/
theorem links_eq : links entries methods cfgOf calleesAt =
    methods.flatMap fun m => (cfgOf m).nodes.flatMap fun n =>
      outgoing cfgOf ((cfgOf m).succsOf n) n
        ((calleesAt n).filter fun c => decide (c ∈ methods)) := by
  have contains : (joined entries methods cfgOf).cfgs.contains = fun c => decide (c ∈ methods) := by
    funext c
    rw [Bool.eq_iff_iff, contains_cfgs_joined, decide_eq_true_eq]
  unfold links
  refine List.flatMap_congr fun m hm => ?_
  rw [get?_cfgs_joined, if_pos hm, Option.getD_some]
  refine List.flatMap_congr fun n _ => ?_
  rw [contains]
  exact linksOf_joined _ n fun c hc => of_decide_eq_true (List.mem_filter.mp hc).2

theorem mem_links {e : IcfgEdge N M} : e ∈ links entries methods cfgOf calleesAt ↔
    ∃ m ∈ methods, ∃ n ∈ (cfgOf m).nodes,
      e ∈ outgoing cfgOf ((cfgOf m).succsOf n) n
        ((calleesAt n).filter fun c => decide (c ∈ methods)) := by
  rw [links_eq]
  simp only [List.mem_flatMap]

variable (methods cfgOf calleesAt) in
/-- The edges of a linked graph. A node that calls methods with graphs leads past them, and their
exits lead to where it leads; a node that does not keeps its edges. -/
inductive Link : IcfgEdge N M → Prop where
  | normal {m : M} {n next : N} (hm : m ∈ methods) (hn : n ∈ (cfgOf m).nodes)
      (hnext : next ∈ (cfgOf m).succsOf n) : Link ⟨.normal, n, next, none, none⟩
  | callToReturn {m c : M} {n next : N} (hm : m ∈ methods) (hn : n ∈ (cfgOf m).nodes)
      (hnext : next ∈ (cfgOf m).succsOf n) (hc : c ∈ calleesAt n) (known : c ∈ methods) :
      Link ⟨.callToReturn, n, next, some n, none⟩
  | ret {m c : M} {n next : N} (hm : m ∈ methods) (hn : n ∈ (cfgOf m).nodes)
      (hnext : next ∈ (cfgOf m).succsOf n) (hc : c ∈ calleesAt n) (known : c ∈ methods) :
      Link ⟨.ret, (cfgOf c).exit, next, some n, some c⟩
  | call {m c : M} {n : N} (hm : m ∈ methods) (hn : n ∈ (cfgOf m).nodes) (hc : c ∈ calleesAt n)
      (known : c ∈ methods) : Link ⟨.call, n, (cfgOf c).entry, some n, some c⟩

theorem link_of_mem {e : IcfgEdge N M} (h : e ∈ links entries methods cfgOf calleesAt) :
    Link methods cfgOf calleesAt e := by
  obtain ⟨m, hm, n, hn, he⟩ := mem_links.mp h
  have callee : ∀ {c}, (c ∈ (calleesAt n).filter fun c => decide (c ∈ methods)) →
      c ∈ calleesAt n ∧ c ∈ methods := by
    intro c hc
    exact ⟨(List.mem_filter.mp hc).1, of_decide_eq_true (List.mem_filter.mp hc).2⟩
  rcases mem_outgoing.mp he with ⟨-, r, hr, rfl⟩ | ⟨c, hc, r, hr, rfl⟩ |
    ⟨c, hc, r, hr, rfl⟩ | ⟨c, hc, rfl⟩
  · exact .normal hm hn hr
  · exact .callToReturn hm hn hr (callee hc).1 (callee hc).2
  · exact .ret hm hn hr (callee hc).1 (callee hc).2
  · exact .call hm hn (callee hc).1 (callee hc).2

theorem mem_edgesInto_link {e : IcfgEdge N M} {n : N} :
    e ∈ (link methods cfgOf calleesAt { entries := entries }).edgesInto n ↔
      e ∈ links entries methods cfgOf calleesAt ∧ e.target = n := by
  rw [link_eq, edgesInto_foldl_addEdge, (edges_joined n).2, List.nil_append, List.mem_filter,
    decide_eq_true_eq]

theorem mem_edgesOutOf_link {e : IcfgEdge N M} {n : N} :
    e ∈ (link methods cfgOf calleesAt { entries := entries }).edgesOutOf n ↔
      e ∈ links entries methods cfgOf calleesAt ∧ e.source = n := by
  rw [link_eq, edgesOutOf_foldl_addEdge, (edges_joined n).1, List.nil_append, List.mem_filter,
    decide_eq_true_eq]

theorem nodes_link : (link methods cfgOf calleesAt { entries := entries }).nodes
    = distinct (methods.flatMap fun m => (cfgOf m).nodes) := by
  rw [link_eq, (foldl_addEdge _ _).1, nodes_joined]

theorem mem_nodes_link {n : N} :
    n ∈ (link methods cfgOf calleesAt { entries := entries }).nodes ↔
      ∃ m ∈ methods, n ∈ (cfgOf m).nodes := by
  rw [nodes_link, mem_distinct, List.mem_flatMap]

/-- **Linked graphs are coherent**, if the graphs of the methods are. -/
theorem coherent_link (coherent : ∀ m ∈ methods, (cfgOf m).Coherent) :
    (link methods cfgOf calleesAt { entries := entries }).Coherent where
  nodup := by
    rw [nodes_link]
    exact nodup_distinct _
  mem_edgesInto e n := by
    rw [mem_edgesInto_link, mem_edgesOutOf_link, and_iff_left rfl]
  source_edgesOutOf e n he := (mem_edgesOutOf_link.mp he).2
  ends e n he := by
    obtain ⟨link, rfl⟩ := mem_edgesInto_link.mp he
    rw [mem_nodes_link, mem_nodes_link]
    cases link_of_mem link with
    | @normal m n next hm hn hnext =>
      exact ⟨⟨m, hm, hn⟩, m, hm, ((coherent m hm).ends n next hnext).2⟩
    | @callToReturn m c n next hm hn hnext hc known =>
      exact ⟨⟨m, hm, hn⟩, m, hm, ((coherent m hm).ends n next hnext).2⟩
    | @ret m c n next hm hn hnext hc known =>
      exact ⟨⟨c, known, (coherent c known).exit_mem⟩, m, hm, ((coherent m hm).ends n next hnext).2⟩
    | @call m c n hm hn hc known => exact ⟨⟨m, hm, hn⟩, c, known, (coherent c known).entry_mem⟩

/-- The entry of a method comes before all other nodes of the method. -/
theorem precedes_entry (built : ∀ m ∈ methods, (cfgOf m).Built)
    (disjoint : ∀ m ∈ methods, ∀ m' ∈ methods, ∀ n ∈ (cfgOf m).nodes, n ∈ (cfgOf m').nodes → m = m')
    {m : M} (hm : m ∈ methods) {n : N} (hn : n ∈ (cfgOf m).nodes) (hne : n ≠ (cfgOf m).entry) :
    Precedes (link methods cfgOf calleesAt { entries := entries }).nodes (cfgOf m).entry n := by
  rw [nodes_link]
  refine Precedes.distinct ?_
  obtain ⟨front, back, heq, new⟩ := List.eq_append_cons_of_mem hm
  obtain ⟨later, hnodes⟩ := (built m hm).nodes_eq_cons
  refine ⟨front.flatMap (fun m => (cfgOf m).nodes) ++ [(cfgOf m).entry],
    later ++ back.flatMap fun m => (cfgOf m).nodes, ?_, ?_, ?_⟩
  · rw [heq, List.flatMap_append, List.flatMap_cons, hnodes]
    simp
  · exact List.mem_append_right _ List.mem_cons_self
  · rw [List.mem_append, List.mem_singleton, not_or]
    refine ⟨?_, hne⟩
    intro h
    obtain ⟨m', hm', hn'⟩ := List.mem_flatMap.mp h
    have known : m' ∈ methods := heq ▸ List.mem_append_left _ hm'
    exact new (disjoint m hm m' known n hn hn' ▸ hm')

/-- **An edge that leaves the entry of a method leads to a node that comes later.** -/
theorem precedes_of_source_entry (built : ∀ m ∈ methods, (cfgOf m).Built)
    (disjoint : ∀ m ∈ methods, ∀ m' ∈ methods, ∀ n ∈ (cfgOf m).nodes, n ∈ (cfgOf m').nodes → m = m')
    {m : M} (hm : m ∈ methods) (exit : (cfgOf m).entry ≠ (cfgOf m).exit)
    (self : (cfgOf m).entry ∉ (cfgOf m).succsOf (cfgOf m).entry)
    (quiet : calleesAt (cfgOf m).entry = []) {e : IcfgEdge N M} {n : N}
    (he : e ∈ (link methods cfgOf calleesAt { entries := entries }).edgesInto n)
    (source : e.source = (cfgOf m).entry) :
    Precedes (link methods cfgOf calleesAt { entries := entries }).nodes (cfgOf m).entry n := by
  have entry := (built m hm).coherent.entry_mem
  obtain ⟨link, rfl⟩ := mem_edgesInto_link.mp he
  -- a call and its edges are out of the question, since the entry calls nothing
  have uncalled : ∀ {c k}, k = (cfgOf m).entry → c ∉ calleesAt k := by
    rintro c k rfl hc
    rw [quiet] at hc
    exact List.not_mem_nil hc
  cases link_of_mem link with
  | @normal m' k next hm' hk hnext =>
    have source : k = (cfgOf m).entry := source
    subst source
    obtain rfl := disjoint m hm m' hm' _ entry hk
    refine precedes_entry built disjoint hm ((built m hm).coherent.ends _ _ hnext).2 ?_
    rintro rfl
    exact self hnext
  | callToReturn _ _ _ hc _ => exact absurd hc (uncalled source)
  | @ret m' c k next _ _ _ _ known =>
    have source : (cfgOf c).exit = (cfgOf m).entry := source
    obtain rfl := disjoint c known m hm _ (built c known).coherent.exit_mem (source ▸ entry)
    exact absurd source.symm exit
  | call _ _ hc _ => exact absurd hc (uncalled source)

theorem entryOf?_link (m : M) : (link methods cfgOf calleesAt { entries := entries }).entryOf? m
    = if m ∈ methods then some (cfgOf m).entry else none := by
  rw [entryOf?, link_eq, (foldl_addEdge _ _).2.1, get?_cfgs_joined]
  split <;> rfl

theorem entries_link : (link methods cfgOf calleesAt { entries := entries }).entries = entries := by
  rw [link_eq, (foldl_addEdge _ _).2.2, entries_joined]

end Linking

/-! ### Graphs of call graphs -/

section Build

variable {graph : CallGraph Stmt Method} {cfgOf : Method → Cfg Node}

/-- The callees of a node, in order. Only statements have any. -/
def calleesAt (graph : CallGraph Stmt Method) (n : Node) : List Method :=
  match n with
  | .stmt s => if s.isCall then sortBy bySignature (graph.calleesOf s) else []
  | _ => []

theorem build_eq :
    build graph cfgOf = link (sortBy bySignature graph.reachable) cfgOf (calleesAt graph)
    { entries := sortBy bySignature graph.entries } := rfl

theorem calleesAt_eq_nil {n : Node} (h : n.stmt? = none) : calleesAt graph n = [] := by
  cases n with
  | stmt s => exact nomatch h
  | entry m => rfl
  | exit m => rfl

theorem coherent_build (coherent : ∀ m ∈ graph.reachable, (cfgOf m).Coherent) :
    (build graph cfgOf).Coherent :=
  coherent_link fun m hm => coherent m (mem_sortBy.mp hm)

/-- In the graph of a call graph, what reads the entry of a method comes later than it. -/
theorem precedes_build (proper : ∀ m ∈ graph.reachable, (cfgOf m).Proper)
    (disjoint : ∀ m ∈ graph.reachable, ∀ m' ∈ graph.reachable,
      ∀ n ∈ (cfgOf m).nodes, n ∈ (cfgOf m').nodes → m = m')
    {m : Method} (hm : m ∈ graph.reachable) {e : IcfgEdge Node Method} {n : Node}
    (he : e ∈ (build graph cfgOf).edgesInto n) (source : e.source = (cfgOf m).entry) :
    Precedes (build graph cfgOf).nodes (cfgOf m).entry n := by
  have known : ∀ {m}, m ∈ sortBy bySignature graph.reachable → m ∈ graph.reachable := mem_sortBy.mp
  exact precedes_of_source_entry (fun m hm => (proper m (known hm)).built)
    (fun m hm m' hm' => disjoint m (known hm) m' (known hm')) (mem_sortBy.mpr hm)
    (proper m hm).entry_ne_exit (proper m hm).entry_not_succ
    (calleesAt_eq_nil (proper m hm).entry_stmt) he source

end Build

end Icfg

end StaticAnalysis
