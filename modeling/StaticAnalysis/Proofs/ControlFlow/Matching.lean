import Mathlib.Data.List.Nodup
import StaticAnalysis.Proofs.CallGraph.Containment
import StaticAnalysis.Proofs.CallGraph.LeastClosure
import StaticAnalysis.Proofs.ControlFlow.Linking
import StaticAnalysis.Proofs.PointsTo.Reuse

/-!
# Calls and returns in interprocedural graphs

`Icfg.build` makes edges node by node, in four kinds, and enters each under its source and under its
target. What comes out is described by kinds, without regard to the order of the work.

* `Icfg.nodup_links` — no edge is made twice, since an edge tells which node made it.
* `Icfg.Calls`, `Icfg.Spans` — which nodes call which methods, and the edges that there have to be.
  `Icfg.mem_links_iff_spans` says that these are made and no others.
* `Icfg.Matches` — a graph that has these edges and keeps them alike on both sides;
  `Icfg.matches_build` says it of the graph that is built.
* `CallGraph.Complete` — call graphs in which all that is called is reachable, as both analyses give
  them.

**Main statement** (`build_matches_calls_with_returns`): a return to a node behind a call exists
exactly if the call leads into the callee, and each of these edges exists once; behind the analyses
no callee is left out.
-/

namespace StaticAnalysis

namespace Icfg

/-! ### The edges of a node -/

section Outgoing

variable {N M : Type} {cfgOf : M → Cfg N} {succs : List N} {n : N} {callees : List M}
    {e : IcfgEdge N M}

/-- An edge knows the node that made it: its call, or its source if it belongs to no call. -/
theorem origin_of_mem_outgoing (he : e ∈ outgoing cfgOf succs n callees) :
    e.callSite.getD e.source = n := by
  rcases mem_outgoing.mp he with ⟨-, r, -, rfl⟩ | ⟨c, -, r, -, rfl⟩ | ⟨c, -, r, -, rfl⟩ |
    ⟨c, -, rfl⟩ <;> rfl

theorem of_mem_behind {r : N} (he : e ∈ behind cfgOf n callees r) :
    e.target = r ∧ e.kind ≠ .call := by
  rcases List.mem_cons.mp he with rfl | he
  · exact ⟨rfl, nofun⟩
  · obtain ⟨c, -, rfl⟩ := List.mem_map.mp he
    exact ⟨rfl, nofun⟩

theorem nodup_behind (nodup : callees.Nodup) (r : N) : (behind cfgOf n callees r).Nodup := by
  refine List.nodup_cons.mpr ⟨?_, ?_⟩
  · intro he
    obtain ⟨c, -, same⟩ := List.mem_map.mp he
    exact nomatch congrArg IcfgEdge.kind same
  · exact nodup.map fun c c' same => Option.some.inj (congrArg IcfgEdge.callee same)

/-- A node makes no edge twice. -/
theorem nodup_outgoing (nodup : succs.Nodup) (distinct : callees.Nodup) :
    (outgoing cfgOf succs n callees).Nodup := by
  cases callees with
  | nil => exact nodup.map fun r r' same => congrArg IcfgEdge.target same
  | cons c cs =>
    have call : ((c :: cs).map fun c =>
        (⟨.call, n, (cfgOf c).entry, some n, some c⟩ : IcfgEdge N M)).Nodup :=
      distinct.map fun c c' same => Option.some.inj (congrArg IcfgEdge.callee same)
    refine List.Nodup.append
      (List.nodup_flatMap.mpr ⟨fun r _ => nodup_behind distinct r, ?_⟩) call ?_
    · refine nodup.imp ?_
      intro r r' different e he he'
      exact different ((of_mem_behind he).1.symm.trans (of_mem_behind he').1)
    · intro e he he'
      obtain ⟨r, -, he⟩ := List.mem_flatMap.mp he
      obtain ⟨c', -, rfl⟩ := List.mem_map.mp he'
      exact (of_mem_behind he).2 rfl

end Outgoing

section Links

variable {N M : Type} [DecidableEq N] [DecidableEq M] {entries methods : List M} {cfgOf : M → Cfg N}
  {calleesAt : N → List M}

/-- **No edge is made twice**, since an edge knows the node that made it, and nodes are listed
once. -/
theorem nodup_links (nodup : methods.Nodup) (cfgs : ∀ m ∈ methods, (cfgOf m).Built)
    (disjoint : ∀ m ∈ methods, ∀ m' ∈ methods, ∀ n ∈ (cfgOf m).nodes, n ∈ (cfgOf m').nodes → m = m')
    (callees : ∀ n, (calleesAt n).Nodup) : (links entries methods cfgOf calleesAt).Nodup := by
  rw [links_eq, List.nodup_flatMap]
  refine ⟨?_, ?_⟩
  · intro m hm
    refine List.nodup_flatMap.mpr ⟨?_, ?_⟩
    · intro n _
      exact nodup_outgoing ((cfgs m hm).nodup_edges n).1 ((callees n).filter _)
    · refine (cfgs m hm).coherent.nodup.imp ?_
      intro n n' different e he he'
      exact different ((origin_of_mem_outgoing he).symm.trans (origin_of_mem_outgoing he'))
  · refine nodup.imp_of_mem ?_
    intro m m' hm hm' different e he he'
    obtain ⟨n, hn, he⟩ := List.mem_flatMap.mp he
    obtain ⟨n', hn', he'⟩ := List.mem_flatMap.mp he'
    have same : n = n' := (origin_of_mem_outgoing he).symm.trans (origin_of_mem_outgoing he')
    exact different (disjoint m hm m' hm' n hn (same ▸ hn'))

end Links

/-! ### Graphs of call graphs -/

section Build

variable {graph : CallGraph Stmt Method} {cfgOf : Method → Cfg Node}

/-- A node is a call of a method that is reachable and so has a graph. -/
def Calls (graph : CallGraph Stmt Method) (n : Node) (c : Method) : Prop :=
  c ∈ graph.reachable ∧ ∃ e ∈ graph.edges, n = .stmt e.site ∧ e.site.isCall = true ∧ e.callee = c

/-- The edges of the graph of a call graph, where `n` leads to `r` inside a method. -/
inductive Spans (graph : CallGraph Stmt Method) (cfgOf : Method → Cfg Node) :
    IcfgEdge Node Method → Prop where
  | normal {m : Method} {n r : Node} (hm : m ∈ graph.reachable) (edge : r ∈ (cfgOf m).succsOf n)
      (quiet : ∀ c, ¬ Calls graph n c) : Spans graph cfgOf ⟨.normal, n, r, none, none⟩
  | callToReturn {m c : Method} {n r : Node} (hm : m ∈ graph.reachable)
      (edge : r ∈ (cfgOf m).succsOf n) (calls : Calls graph n c) :
      Spans graph cfgOf ⟨.callToReturn, n, r, some n, none⟩
  | ret {m c : Method} {n r : Node} (hm : m ∈ graph.reachable) (edge : r ∈ (cfgOf m).succsOf n)
      (calls : Calls graph n c) : Spans graph cfgOf ⟨.ret, (cfgOf c).exit, r, some n, some c⟩
  | call {m c : Method} {n : Node} (hm : m ∈ graph.reachable) (hn : n ∈ (cfgOf m).nodes)
      (calls : Calls graph n c) : Spans graph cfgOf ⟨.call, n, (cfgOf c).entry, some n, some c⟩

theorem mem_calleesAt (built : graph.Built) {n : Node} {c : Method} :
    c ∈ calleesAt graph n ↔
      ∃ e ∈ graph.edges, n = .stmt e.site ∧ e.site.isCall = true ∧ e.callee = c := by
  cases n with
  | entry m => exact iff_of_false List.not_mem_nil fun ⟨_, _, same, _⟩ => nomatch same
  | exit m => exact iff_of_false List.not_mem_nil fun ⟨_, _, same, _⟩ => nomatch same
  | stmt s =>
    show c ∈ (if s.isCall then sortBy bySignature (graph.calleesOf s) else []) ↔ _
    by_cases call : s.isCall = true
    · rw [if_pos call, mem_sortBy, built.mem_calleesOf]
      constructor
      · rintro ⟨e, he, rfl, rfl⟩
        exact ⟨e, he, rfl, call, rfl⟩
      · rintro ⟨e, he, same, -, rfl⟩
        cases same
        exact ⟨e, he, rfl, rfl⟩
    · rw [if_neg call]
      refine iff_of_false List.not_mem_nil ?_
      rintro ⟨e, he, same, isCall, -⟩
      cases same
      exact call isCall

theorem nodup_calleesAt (n : Node) : (calleesAt graph n).Nodup := by
  cases n with
  | entry m => exact List.nodup_nil
  | exit m => exact List.nodup_nil
  | stmt s =>
    show (if s.isCall then sortBy bySignature (graph.calleesOf s) else []).Nodup
    split
    · exact (sortBy_perm bySignature _).nodup_iff.mpr (nodup_distinct _)
    · exact List.nodup_nil

/-- The edges that are made are those that have to be. -/
theorem mem_links_iff_spans (built : graph.Built) (cfgs : ∀ m ∈ graph.reachable, (cfgOf m).Built)
    {entries : List Method} {e : IcfgEdge Node Method} :
    e ∈ links entries (sortBy bySignature graph.reachable) cfgOf (calleesAt graph) ↔
      Spans graph cfgOf e := by
  have known : ∀ n c, (c ∈ (calleesAt graph n).filter fun c =>
      decide (c ∈ sortBy bySignature graph.reachable)) ↔
      Calls graph n c := by
    intro n c
    rw [List.mem_filter, decide_eq_true_eq, mem_sortBy, mem_calleesAt built, and_comm]
    rfl
  constructor
  · intro he
    obtain ⟨m, hm, n, hn, he⟩ := mem_links.mp he
    have hm := mem_sortBy.mp hm
    rcases mem_outgoing.mp he with
      ⟨none, r, hr, rfl⟩ | ⟨c, hc, r, hr, rfl⟩ | ⟨c, hc, r, hr, rfl⟩ | ⟨c, hc, rfl⟩
    · refine .normal hm hr fun c calls => ?_
      have mem := (known n c).mpr calls
      rw [none] at mem
      exact List.not_mem_nil mem
    · exact .callToReturn hm hr ((known n c).mp hc)
    · exact .ret hm hr ((known n c).mp hc)
    · exact .call hm hn ((known n c).mp hc)
  · intro spans
    have node : ∀ {m n r}, m ∈ graph.reachable → r ∈ (cfgOf m).succsOf n → n ∈ (cfgOf m).nodes := by
      intro m n r hm hr
      exact ((cfgs m hm).coherent.ends n r hr).1
    cases spans with
    | @normal m n r hm hr quiet =>
      have none : ((calleesAt graph n).filter fun c =>
          decide (c ∈ sortBy bySignature graph.reachable)) = [] :=
        List.eq_nil_iff_forall_not_mem.mpr fun c hc => quiet c ((known n c).mp hc)
      exact mem_links.mpr ⟨m, mem_sortBy.mpr hm, n, node hm hr,
        mem_outgoing.mpr (Or.inl ⟨none, r, hr, rfl⟩)⟩
    | @callToReturn m c n r hm hr calls =>
      refine mem_links.mpr ⟨m, mem_sortBy.mpr hm, n, node hm hr,
        mem_outgoing.mpr (Or.inr (Or.inl ?_))⟩
      exact ⟨c, (known n c).mpr calls, r, hr, rfl⟩
    | @ret m c n r hm hr calls =>
      refine mem_links.mpr ⟨m, mem_sortBy.mpr hm, n, node hm hr,
        mem_outgoing.mpr (Or.inr (Or.inr (Or.inl ?_)))⟩
      exact ⟨c, (known n c).mpr calls, r, hr, rfl⟩
    | @call m c n hm hn calls =>
      refine mem_links.mpr ⟨m, mem_sortBy.mpr hm, n, hn,
        mem_outgoing.mpr (Or.inr (Or.inr (Or.inr ?_)))⟩
      exact ⟨c, (known n c).mpr calls, rfl⟩

/-! ### What the kind of an edge says -/

namespace Spans

variable {e : IcfgEdge Node Method}

theorem eq_of_normal (h : Spans graph cfgOf e) (kind : e.kind = .normal) :
    e = ⟨.normal, e.source, e.target, none, none⟩ := by
  cases h <;> first | rfl | cases kind

theorem eq_of_callToReturn (h : Spans graph cfgOf e) (kind : e.kind = .callToReturn) :
    e = ⟨.callToReturn, e.source, e.target, some e.source, none⟩ := by
  cases h <;> first | rfl | cases kind

/-- A return belongs to a call, from whose callee it comes, and leads to where the call leads. -/
theorem exists_of_ret (h : Spans graph cfgOf e) (kind : e.kind = .ret) :
    ∃ m ∈ graph.reachable, ∃ n c, e.target ∈ (cfgOf m).succsOf n ∧ Calls graph n c ∧
      e = ⟨.ret, (cfgOf c).exit, e.target, some n, some c⟩ := by
  cases h with
  | @ret m c n r hm hr calls => exact ⟨m, hm, n, c, hr, calls, rfl⟩
  | _ => cases kind

theorem exists_of_call (h : Spans graph cfgOf e) (kind : e.kind = .call) :
    ∃ c, Calls graph e.source c ∧
      e = ⟨.call, e.source, (cfgOf c).entry, some e.source, some c⟩ := by
  cases h with
  | @call m c n hm hn calls => exact ⟨c, calls, rfl⟩
  | _ => cases kind

end Spans

/-! ### The statement -/

/-- The edges of a kind from one node to another. -/
def between (g : Icfg Node Method) (kind : EdgeKind) (n r : Node) : List (IcfgEdge Node Method) :=
  (g.edgesOutOf n).filter fun e => decide (e.kind = kind ∧ e.target = r)

/-- A graph links the control-flow graphs of the reachable methods exactly, and matches calls with
returns. -/
structure Matches (graph : CallGraph Stmt Method) (cfgOf : Method → Cfg Node)
    (g : Icfg Node Method) : Prop where
  entries : ∀ m, m ∈ g.entries ↔ m ∈ graph.entries
  cfgs : ∀ m, g.cfgs.get? m = if m ∈ graph.reachable then some (cfgOf m) else none
  nodup_nodes : g.nodes.Nodup
  mem_nodes : ∀ n, n ∈ g.nodes ↔ ∃ m ∈ graph.reachable, n ∈ (cfgOf m).nodes
  /-- Where nothing is called, an edge of a method stays as it is. -/
  normal : ∀ m ∈ graph.reachable, ∀ n, ∀ r ∈ (cfgOf m).succsOf n, (∀ c, ¬ Calls graph n c) →
    g.between .normal n r = [⟨.normal, n, r, none, none⟩]
  /-- Where something is called, it leads past the call instead, -/
  callToReturn : ∀ m ∈ graph.reachable, ∀ n, ∀ r ∈ (cfgOf m).succsOf n, ∀ c, Calls graph n c →
    g.between .callToReturn n r = [⟨.callToReturn, n, r, some n, none⟩]
  /-- and so do the exits of all that is called. -/
  ret : ∀ m ∈ graph.reachable, ∀ n, ∀ r ∈ (cfgOf m).succsOf n, ∀ c, Calls graph n c →
    ((g.between .ret (cfgOf c).exit r).filter fun e =>
      decide (e.callSite = some n ∧ e.callee = some c)) =
      [⟨.ret, (cfgOf c).exit, r, some n, some c⟩]
  /-- A call leads to the entries of all that is called, whether control comes back or not. -/
  call : ∀ m ∈ graph.reachable, ∀ n ∈ (cfgOf m).nodes, ∀ c, Calls graph n c →
    g.between .call n (cfgOf c).entry = [⟨.call, n, (cfgOf c).entry, some n, some c⟩]
  /-- There are no other edges, and all are kept by source and by target, -/
  mem_edgesOutOf : ∀ e n, e ∈ g.edgesOutOf n ↔ Spans graph cfgOf e ∧ e.source = n
  mem_edgesInto : ∀ e n, e ∈ g.edgesInto n ↔ Spans graph cfgOf e ∧ e.target = n
  /-- once each. -/
  nodup_edges : ∀ n, (g.edgesOutOf n).Nodup ∧ (g.edgesInto n).Nodup
  ends : ∀ e, Spans graph cfgOf e → e.source ∈ g.nodes ∧ e.target ∈ g.nodes
  /-- What comes back from a callee has gone into it, and comes back to where the call leads. -/
  matched : ∀ n c r,
    (∃ e ∈ g.edgesInto r, e.kind = .ret ∧ e.callSite = some n ∧ e.callee = some c) ↔
      (∃ e ∈ g.edgesOutOf n, e.kind = .call ∧ e.target = (cfgOf c).entry ∧ e.callee = some c) ∧
        ∃ m ∈ graph.reachable, r ∈ (cfgOf m).succsOf n

/-- A list in which only one element passes a test, listed once. -/
theorem filter_eq_singleton {α : Type} {l : List α} {p : α → Bool} {a : α} (nodup : l.Nodup)
    (mem : a ∈ l) (pass : p a = true) (only : ∀ b ∈ l, p b = true → b = a) : l.filter p = [a] := by
  have same : ∀ b, b ∈ l.filter p ↔ b ∈ [a] := by
    intro b
    rw [List.mem_filter, List.mem_singleton]
    constructor
    · exact fun hb => only b hb.1 hb.2
    · rintro rfl
      exact ⟨mem, pass⟩
  exact List.perm_singleton.mp
    ((List.perm_ext_iff_of_nodup (nodup.filter p) (List.nodup_singleton a)).mpr same)

/-! ### The graph that is built -/

section Exact

variable (built : graph.Built) (cfgs : ∀ m ∈ graph.reachable, (cfgOf m).Built)
  (disjoint : ∀ m ∈ graph.reachable, ∀ m' ∈ graph.reachable, ∀ n ∈ (cfgOf m).nodes,
    n ∈ (cfgOf m').nodes → m = m')

include built cfgs

theorem mem_edgesOutOf_build (e : IcfgEdge Node Method) (n : Node) :
    e ∈ (build graph cfgOf).edgesOutOf n ↔ Spans graph cfgOf e ∧ e.source = n := by
  rw [build_eq, mem_edgesOutOf_link, mem_links_iff_spans built cfgs]

theorem mem_edgesInto_build (e : IcfgEdge Node Method) (n : Node) :
    e ∈ (build graph cfgOf).edgesInto n ↔ Spans graph cfgOf e ∧ e.target = n := by
  rw [build_eq, mem_edgesInto_link, mem_links_iff_spans built cfgs]

/-- What comes back from a callee has gone into it, and comes back to where the call leads. -/
theorem ret_iff_call (n : Node) (c : Method) (r : Node) :
    (∃ e ∈ (build graph cfgOf).edgesInto r, e.kind = .ret ∧ e.callSite = some n ∧
      e.callee = some c) ↔
      (∃ e ∈ (build graph cfgOf).edgesOutOf n, e.kind = .call ∧ e.target = (cfgOf c).entry ∧
        e.callee = some c) ∧
        ∃ m ∈ graph.reachable, r ∈ (cfgOf m).succsOf n := by
  constructor
  · rintro ⟨e, he, kind, callSite, callee⟩
    obtain ⟨spans, rfl⟩ := (mem_edgesInto_build built cfgs e r).mp he
    obtain ⟨m, hm, n', c', hr, calls, heq⟩ := spans.exists_of_ret kind
    rw [heq] at callSite callee
    cases callSite
    cases callee
    have call : Spans graph cfgOf ⟨.call, n, (cfgOf c).entry, some n, some c⟩ :=
      .call hm ((cfgs m hm).coherent.ends n _ hr).1 calls
    exact ⟨⟨_, (mem_edgesOutOf_build built cfgs _ n).mpr ⟨call, rfl⟩, rfl, rfl, rfl⟩, m, hm, hr⟩
  · rintro ⟨⟨e, he, kind, -, callee⟩, m, hm, hr⟩
    obtain ⟨spans, rfl⟩ := (mem_edgesOutOf_build built cfgs e n).mp he
    obtain ⟨c', calls, heq⟩ := spans.exists_of_call kind
    rw [heq] at callee
    cases callee
    have ret : Spans graph cfgOf ⟨.ret, (cfgOf c).exit, r, some e.source, some c⟩ :=
      .ret hm hr calls
    exact ⟨_, (mem_edgesInto_build built cfgs _ r).mpr ⟨ret, rfl⟩, rfl, rfl, rfl⟩

include disjoint

theorem nodup_edges_build (n : Node) :
    ((build graph cfgOf).edgesOutOf n).Nodup ∧ ((build graph cfgOf).edgesInto n).Nodup := by
  have all : (links (sortBy bySignature graph.entries) (sortBy bySignature graph.reachable) cfgOf
      (calleesAt graph)).Nodup :=
    nodup_links ((sortBy_perm bySignature graph.reachable).nodup_iff.mpr built.nodup.2.1)
      (fun m hm => cfgs m (mem_sortBy.mp hm))
      (fun m hm m' hm' => disjoint m (mem_sortBy.mp hm) m' (mem_sortBy.mp hm')) nodup_calleesAt
  rw [build_eq, link_eq, edgesOutOf_foldl_addEdge, edgesInto_foldl_addEdge, (edges_joined n).1,
    (edges_joined n).2]
  exact ⟨all.filter _, all.filter _⟩

/-- An edge that kind and ends determine is the only one between its ends, of its kind. -/
theorem between_eq_singleton {e : IcfgEdge Node Method} (spans : Spans graph cfgOf e)
    (only : ∀ e', Spans graph cfgOf e' → e'.kind = e.kind → e'.source = e.source →
      e'.target = e.target → e' = e) :
    (build graph cfgOf).between e.kind e.source e.target = [e] := by
  have mem := (mem_edgesOutOf_build built cfgs e e.source).mpr ⟨spans, rfl⟩
  refine filter_eq_singleton (nodup_edges_build built cfgs disjoint e.source).1 mem
    (decide_eq_true ⟨rfl, rfl⟩) ?_
  intro e' he' same
  obtain ⟨kind, target⟩ := of_decide_eq_true same
  obtain ⟨spans', source⟩ := (mem_edgesOutOf_build built cfgs e' e.source).mp he'
  exact only e' spans' kind source target

/-- The only return from a callee to a node that belongs to a call. -/
theorem returns_eq_singleton {m c : Method} {n r : Node} (hm : m ∈ graph.reachable)
    (hr : r ∈ (cfgOf m).succsOf n) (calls : Calls graph n c) :
    (((build graph cfgOf).between .ret (cfgOf c).exit r).filter fun e =>
      decide (e.callSite = some n ∧ e.callee = some c)) =
        [⟨.ret, (cfgOf c).exit, r, some n, some c⟩] := by
  have out := mem_edgesOutOf_build built cfgs
  have spans : Spans graph cfgOf ⟨.ret, (cfgOf c).exit, r, some n, some c⟩ := .ret hm hr calls
  have nodup := (nodup_edges_build built cfgs disjoint (cfgOf c).exit).1
  refine filter_eq_singleton (nodup.filter _) ?_ (decide_eq_true ⟨rfl, rfl⟩) ?_
  · exact List.mem_filter.mpr ⟨(out _ _).mpr ⟨spans, rfl⟩, decide_eq_true ⟨rfl, rfl⟩⟩
  · intro e he same
    obtain ⟨callSite, callee⟩ := of_decide_eq_true same
    obtain ⟨he, same⟩ := List.mem_filter.mp he
    obtain ⟨kind, target⟩ := of_decide_eq_true same
    obtain ⟨m', -, n', c', -, -, heq⟩ := ((out e _).mp he).1.exists_of_ret kind
    rw [heq] at callSite callee
    cases callSite
    cases callee
    rw [heq, target]

theorem matches_build : Matches graph cfgOf (build graph cfgOf) := by
  have coherent := coherent_build fun m hm => (cfgs m hm).coherent
  refine ⟨?_, ?_, coherent.nodup, ?_, ?_, ?_, ?_, ?_, mem_edgesOutOf_build built cfgs,
    mem_edgesInto_build built cfgs,
    nodup_edges_build built cfgs disjoint, ?_, ret_iff_call built cfgs⟩
  · intro m
    rw [build_eq, entries_link, mem_sortBy]
  · intro m
    rw [build_eq, link_eq, (foldl_addEdge _ _).2.1, get?_cfgs_joined]
    exact if_congr mem_sortBy rfl rfl
  · intro n
    rw [build_eq, mem_nodes_link]
    simp only [mem_sortBy]
  · intro m hm n r hr quiet
    refine between_eq_singleton built cfgs disjoint (.normal hm hr quiet) ?_
    intro e spans kind source target
    rw [spans.eq_of_normal kind, source, target]
  · intro m hm n r hr c calls
    refine between_eq_singleton built cfgs disjoint (.callToReturn hm hr calls) ?_
    intro e spans kind source target
    rw [spans.eq_of_callToReturn kind, source, target]
  · intro m hm n r hr c calls
    exact returns_eq_singleton built cfgs disjoint hm hr calls
  · intro m hm n hn c calls
    refine between_eq_singleton built cfgs disjoint (.call hm hn calls) ?_
    intro e spans kind source target
    obtain ⟨c', calls', heq⟩ := spans.exists_of_call kind
    have shared : (cfgOf c').entry = (cfgOf c).entry :=
      (congrArg IcfgEdge.target heq).symm.trans target
    -- methods with the same entry are the same
    have entry : (cfgOf c').entry ∈ (cfgOf c).nodes := shared ▸ (cfgs c calls.1).coherent.entry_mem
    obtain rfl := disjoint c' calls'.1 c calls.1 _ (cfgs c' calls'.1).coherent.entry_mem entry
    rw [heq, source]
  · intro e spans
    exact coherent.ends e e.target ((mem_edgesInto_build built cfgs e _).mpr ⟨spans, rfl⟩)

end Exact

end Build

end Icfg

/-! ### Call graphs that leave nothing out -/

/-- All entries and all callees are reachable. -/
structure CallGraph.Complete (graph : CallGraph Stmt Method) : Prop where
  entries : ∀ m ∈ graph.entries, m ∈ graph.reachable
  callees : ∀ e ∈ graph.edges, e.callee ∈ graph.reachable

theorem HierarchyAnalysis.complete_build (p : Program) (order : Arrangement Method) :
    (build p order).Complete where
  entries m hm := by
    rw [entries_build, mem_distinct] at hm
    exact (closed_build p order).entries hm
  callees := (closed_build p order).callees

/-- Entries are reachable at rest, and so is what is called. -/
theorem PointsTo.AtRest.complete_callGraph {rules : Rules} {entries : List Method} {st : State}
    (h : AtRest rules entries st) : st.callGraph.Complete where
  entries m hm := by
    rw [State.callGraph, CallGraph.entries_dropContexts, mem_distinct] at hm
    obtain ⟨m', hm', rfl⟩ := List.mem_map.mp hm
    obtain ⟨-, entry⟩ := (h.mem_entries m').mp hm'
    have reached := (h.holds_iff (.reached ([], m'.2))).mpr (.entry entry)
    exact st.graph.mem_reachable_dropContexts.mpr ⟨[], reached⟩
  callees e he := by
    obtain ⟨e', he', rfl⟩ := st.graph.mem_edges_dropContexts.mp he
    have called := (h.holds_iff (.called e')).mp he'
    have reached := (h.holds_iff (.reached e'.callee)).mpr called.callee
    exact st.graph.mem_reachable_dropContexts.mpr ⟨e'.callee.1, reached⟩

namespace Icfg

/-- **Linking is exact, and calls match returns.** If the control-flow graphs of the reachable
methods of a call graph have no nodes in common:

* the nodes of the linked graph are those of these graphs, each once;
* an edge of a method is kept as it is, once, unless it leads on from a call of methods that have
  graphs: then there is one edge past the call, and one from the exit of each callee, and one from
  the call to the entry of each callee;
* there are no other edges, each is kept once under its source and once under its target, and both
  ends are nodes;
* there is a return for a call, a callee and a node just if the call leads into the callee and on to
  the node.

In the call graphs of both analyses all entries and callees have graphs. -/
theorem build_matches_calls_with_returns (graph : CallGraph Stmt Method) (built : graph.Built)
    (cfgOf : Method → Cfg Node) (cfgs : ∀ m ∈ graph.reachable, (cfgOf m).Built)
    (disjoint : ∀ m ∈ graph.reachable, ∀ m' ∈ graph.reachable,
      ∀ n ∈ (cfgOf m).nodes, n ∈ (cfgOf m').nodes → m = m') :
    Matches graph cfgOf (build graph cfgOf) ∧
    ((∃ p order, graph = HierarchyAnalysis.build p order) ∨
      (∃ (rules : PointsTo.Rules) (n : Nat) (programs : List (List Method)) (st : PointsTo.State),
        rules.analyzeEach n {} programs = .finished st ∧ graph = st.callGraph) →
      (∀ m ∈ graph.entries, (build graph cfgOf).cfgs.get? m = some (cfgOf m)) ∧
      ∀ e ∈ graph.edges, (build graph cfgOf).cfgs.get? e.callee = some (cfgOf e.callee)) := by
  have exact_links := matches_build built cfgs disjoint
  refine ⟨exact_links, fun analysed => ?_⟩
  have complete : graph.Complete := by
    rcases analysed with ⟨p, order, rfl⟩ | ⟨rules, n, programs, st, finished, rfl⟩
    · exact HierarchyAnalysis.complete_build p order
    · exact (PointsTo.atRest_empty.analyzeEach finished).complete_callGraph
  refine ⟨?_, ?_⟩
  · intro m hm
    rw [exact_links.cfgs, if_pos (complete.entries m hm)]
  · intro e he
    rw [exact_links.cfgs, if_pos (complete.callees e he)]

open PointsTo in
/-- The calls of the shapes: two of them, of which each comes back. -/
theorem build_matches_calls_with_returns_shapes :
    Matches (HierarchyAnalysis.build Shapes.program .asListed) (Cfg.ofMethod Shapes.code)
      (build (HierarchyAnalysis.build Shapes.program .asListed) (Cfg.ofMethod Shapes.code)) ∧
    (HierarchyAnalysis.build Shapes.program .asListed).edges.length = 2 ∧
    ∀ e ∈ (HierarchyAnalysis.build Shapes.program .asListed).edges,
      (build (HierarchyAnalysis.build Shapes.program .asListed)
        (Cfg.ofMethod Shapes.code)).cfgs.get? e.callee =
        some (Cfg.ofMethod Shapes.code e.callee) := by
  obtain ⟨exact_links, complete⟩ := build_matches_calls_with_returns
    (HierarchyAnalysis.build Shapes.program .asListed) (HierarchyAnalysis.built_build _ _)
      (Cfg.ofMethod Shapes.code)
    (fun m _ => (Cfg.proper_ofMethod Shapes.code m).built) (by decide +kernel)
  exact ⟨exact_links, by decide +kernel, (complete (Or.inl ⟨_, _, rfl⟩)).2⟩

end Icfg

end StaticAnalysis
