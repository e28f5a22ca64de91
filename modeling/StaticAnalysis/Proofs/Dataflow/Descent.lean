import Mathlib.Data.DFinsupp.WellFounded
import Mathlib.Data.Prod.Lex
import StaticAnalysis.Proofs.Dataflow.Equations

/-!
# Facts that only fall

Runs of the worklist engine over facts with an order in which nothing falls for ever. The facts that
a run begins with may lie anywhere: the first visit of a node may raise its output. What makes facts
fall nevertheless is that such an output either is read through a meet that it does not raise, or is
not read before it is gone.

* `MeetLaws` — what is asked of a meet; `MeetLaws.semilattice` is the order that it gives.
* `Equations.Descends` — monotone equations, and what is asked of the facts at the beginning.
* `Falling` — the invariant: what visited nodes would gather anew is below their inputs, and so is
  every solution. `Falling.sees_output` is where the beginning is used.

**Main statement** (`Equations.Descends.settles`): the run comes to an end, at the greatest
solution. `Engine.Implements.run_greatest` says it of engines.
-/

namespace StaticAnalysis.Dataflow

/-! ### Meets -/

/-- A meet is commutative, associative and idempotent, and there is no endless sequence of facts
each of which is strictly below the one before, where `a` is below `b` if their meet is `a`. -/
structure MeetLaws {F : Type} (meet : F → F → F) : Prop where
  comm : ∀ a b, meet a b = meet b a
  assoc : ∀ a b c, meet (meet a b) c = meet a (meet b c)
  idem : ∀ a, meet a a = a
  noDescent : ¬ ∃ facts : Nat → F, ∀ i,
    meet (facts (i + 1)) (facts i) = facts (i + 1) ∧ facts (i + 1) ≠ facts i

namespace MeetLaws

variable {F : Type} {meet : F → F → F}

/-- The order of a meet. -/
abbrev semilattice (laws : MeetLaws meet) : SemilatticeInf F where
  le a b := meet a b = a
  le_refl := laws.idem
  le_trans a b c hab hbc := by
    show meet a c = a
    rw [← hab, laws.assoc, hbc]
  le_antisymm a b hab hba := by
    rw [← hab, laws.comm, hba]
  inf := meet
  inf_le_left a b := by
    show meet (meet a b) a = meet a b
    rw [laws.comm, ← laws.assoc, laws.idem]
  inf_le_right a b := by
    show meet (meet a b) b = meet a b
    rw [laws.assoc, laws.idem]
  le_inf a b c hab hac := by
    show meet a (meet b c) = a
    rw [← laws.assoc, hab, hac]

theorem wellFoundedLT (laws : MeetLaws meet) : @WellFoundedLT F laws.semilattice.toLT := by
  let _ := laws.semilattice
  refine ⟨wellFounded_iff_isEmpty_descending_chain.mpr ⟨fun ⟨facts, below⟩ => ?_⟩⟩
  exact laws.noDescent ⟨facts, fun i => ⟨(below i).le, (below i).ne⟩⟩

/-- The smaller of two facts is their meet, where the order has no endless descent. -/
theorem min {F : Type} [LinearOrder F] [WellFoundedLT F] : MeetLaws (min : F → F → F) where
  comm := min_comm
  assoc := min_assoc
  idem := min_self
  noDescent := by
    rintro ⟨facts, below⟩
    have chains := wellFounded_iff_isEmpty_descending_chain.mp (wellFounded_lt (α := F))
    exact chains.false ⟨facts, fun i => lt_of_le_of_ne (min_eq_left_iff.mp (below i).1) (below i).2⟩

end MeetLaws

/-- What lies below a meet over a list. -/
theorem le_foldl_inf {F α : Type} [SemilatticeInf F] (f : α → F) (xs : List α) (a b : F) :
    a ≤ xs.foldl (fun c x => c ⊓ f x) b ↔ a ≤ b ∧ ∀ x ∈ xs, a ≤ f x := by
  induction xs generalizing b with
  | nil => simp
  | cons x xs ih => rw [List.foldl_cons, ih, le_inf_iff, List.forall_mem_cons, and_assoc]

/-- A meet over a list is below every one of its members. -/
theorem foldl_inf_le {F α : Type} [SemilatticeInf F] (f : α → F) (xs : List α) (b : F) :
    xs.foldl (fun c x => c ⊓ f x) b ≤ b ∧ ∀ x ∈ xs, xs.foldl (fun c x => c ⊓ f x) b ≤ f x :=
  (le_foldl_inf f xs _ b).mp le_rfl

/-! ### The invariant -/

namespace Equations

variable {N F : Type} [PartialOrder F] (eqs : Equations N F)

/-- Transfers are monotone, and so is gathering, already where outputs are only compared by `sees`,
which asks for less than the order. In this sense the output that a node begins with is above
everything, unless the node is visited before all that read it. -/
structure Descends (start : N → F) (sees : F → F → Prop) : Prop where
  sees_of_le : ∀ a b, a ≤ b → sees a b
  transfer_mono : ∀ n ∈ eqs.nodes, Monotone (eqs.transfer n)
  gather_mono : ∀ n output output', (∀ m, n ∈ eqs.succs m → sees (output m) (output' m)) →
    eqs.gather output n ≤ eqs.gather output' n
  start_sees : ∀ m n, n ∈ eqs.succs m → Precedes eqs.nodes m n ∨ ∀ a, sees a (start m)

/-- The nodes ahead have the outputs they began with. For the others, what they would gather now is
below their input, and so is the input of every solution. -/
structure Falling (start : N → F) (seen ahead : List N) (s : Snapshot N F) : Prop
    extends eqs.Consistent seen ahead s where
  fresh : ∀ n ∈ ahead, s.output n = start n
  falls : ∀ n ∈ seen, eqs.gather s.output n ≤ s.input n
  above : ∀ input output, eqs.Solved input output → ∀ n ∈ seen, input n ≤ s.input n

namespace Falling

variable [DecidableEq N] {eqs} {start : N → F} {sees : F → F → Prop} {seen ahead : List N}
  {s : Snapshot N F} {n : N} {rest : WorkList N}

theorem init (loc : eqs.Local) (input : N → F) :
    eqs.Falling start [] eqs.nodes ⟨input, start, .ofList eqs.nodes⟩ where
  toConsistent := .start loc input start
  fresh _ _ := rfl
  falls _ hn := absurd hn List.not_mem_nil
  above _ _ _ _ hn := absurd hn List.not_mem_nil

/-- At the visit of `n`, let `k` be a node that has been visited then and that reads `m`. In the
sense of `sees`, the output of `m` is above all that it is above if `m` has been visited. Otherwise
`m` does not precede `k`, so that its output is one that is above everything. -/
theorem sees_output (loc : eqs.Local) (desc : eqs.Descends start sees)
    (h : eqs.Falling start seen ahead s) (taken : s.work.poll? = some (n, rest)) {k m : N}
    (hk : k ∈ adjoin seen n) (edge : k ∈ eqs.succs m) {a : F} (below : m ∈ seen → a ≤ s.output m) :
    sees a (s.output m) := by
  by_cases hm : m ∈ seen
  · exact desc.sees_of_le a _ (below hm)
  have hnode := (loc.ends m k edge).1
  rw [h.nodes_eq, List.mem_append] at hnode
  have hahead : m ∈ ahead := hnode.resolve_left hm
  rw [h.fresh m hahead]
  refine (desc.start_sees m k edge).resolve_left (fun precedes => hm ?_) a
  rcases h.turn loc taken with ⟨rfl, -⟩ | ⟨later, again, rfl, -⟩
  · exact absurd hahead List.not_mem_nil
  · rw [h.nodes_eq] at precedes
    rcases mem_adjoin.mp hk with hk | rfl
    · exact precedes.mem_left hk
    · rw [List.append_cons] at precedes
      have hm' := precedes.mem_left (List.mem_append_right seen List.mem_cons_self)
      exact (List.mem_append.mp hm').resolve_right fun e => precedes.ne (List.mem_singleton.mp e)

variable [DecidableEq F]

/-- The output of a node that has been visited before does not rise. -/
theorem output_visit_le (desc : eqs.Descends start sees) (h : eqs.Falling start seen ahead s)
    (hn : n ∈ seen) (m : N) : (eqs.visit s n rest).output m ≤ s.output m := by
  by_cases hmn : m = n
  · rw [hmn, output_visit_self, h.applied n hn]
    exact desc.transfer_mono n (h.mem_nodes_of_seen hn) (h.falls n hn)
  · rw [output_visit_of_ne hmn]

/-- A visit does not raise what visited nodes gather. -/
theorem gather_visit_le (loc : eqs.Local) (desc : eqs.Descends start sees)
    (h : eqs.Falling start seen ahead s) (taken : s.work.poll? = some (n, rest)) {k : N}
    (hk : k ∈ adjoin seen n) :
    eqs.gather (eqs.visit s n rest).output k ≤ eqs.gather s.output k := by
  refine desc.gather_mono k _ _ fun m edge => h.sees_output loc desc taken hk edge fun hm => ?_
  by_cases hmn : m = n
  · exact h.output_visit_le desc (hmn ▸ hm) m
  · rw [output_visit_of_ne hmn]

/-- **A visit keeps the invariant.** -/
theorem visit (loc : eqs.Local) (desc : eqs.Descends start sees)
    (h : eqs.Falling start seen ahead s) (taken : s.work.poll? = some (n, rest)) :
    eqs.Falling start (adjoin seen n) ahead.tail (eqs.visit s n rest) where
  toConsistent := h.toConsistent.visit loc taken
  fresh m hm := by
    have hne : m ≠ n := by
      rintro rfl
      rcases h.turn loc taken with ⟨rfl, -⟩ | ⟨later, again, rfl, -⟩
      · exact absurd hm List.not_mem_nil
      · have nodup : (seen ++ m :: later).Nodup := h.nodes_eq ▸ loc.nodup
        exact (List.nodup_cons.mp (List.nodup_append.mp nodup).2.1).1 hm
    rw [output_visit_of_ne hne]
    exact h.fresh m (List.mem_of_mem_tail hm)
  falls k hk := by
    refine (h.gather_visit_le loc desc taken hk).trans ?_
    by_cases hkn : k = n
    · rw [hkn, input_visit_self]
    · rw [input_visit_of_ne hkn]
      exact h.falls k ((mem_adjoin.mp hk).resolve_right hkn)
  above input output solved k hk := by
    by_cases hkn : k = n
    · subst hkn
      rw [input_visit_self, (solved k (h.mem_nodes loc taken)).1]
      refine desc.gather_mono k _ _ fun m edge => h.sees_output loc desc taken hk edge fun hm => ?_
      rw [(solved m (loc.ends m k edge).1).2, h.applied m hm]
      exact desc.transfer_mono m (h.mem_nodes_of_seen hm) (h.above input output solved m hm)
    · rw [input_visit_of_ne hkn]
      exact h.above input output solved k ((mem_adjoin.mp hk).resolve_right hkn)

/-! ### Runs -/

/-- What gets smaller: the number of nodes that have not been visited, then the outputs, then the
worklist. -/
def rank (eqs : Equations N F) (ahead : List N) (s : Snapshot N F) :
    Nat ×ₗ ({n // n ∈ eqs.nodes} → F) ×ₗ Nat :=
  toLex (ahead.length, toLex (fun n => s.output n.1, s.work.queue.length))

theorem rank_visit_lt (loc : eqs.Local) (desc : eqs.Descends start sees)
    (h : eqs.Falling start seen ahead s) (taken : s.work.poll? = some (n, rest)) :
    rank eqs ahead.tail (eqs.visit s n rest) < rank eqs ahead s := by
  have node := h.mem_nodes loc taken
  rcases h.turn loc taken with ⟨rfl, hn, -⟩ | ⟨later, again, rfl, -⟩
  · refine Prod.Lex.toLex_lt_toLex.mpr (Or.inr ⟨rfl, Prod.Lex.toLex_lt_toLex.mpr ?_⟩)
    by_cases same : eqs.transfer n (eqs.gather s.output n) = s.output n
    · -- no output changes, and nothing takes the place of the node in the worklist
      obtain ⟨outputs, work⟩ : (eqs.visit s n rest).output = s.output ∧
          (eqs.visit s n rest).work = rest := visit_of_eq same
      obtain ⟨front, -⟩ := h.faithful.poll taken
      refine Or.inr ⟨?_, ?_⟩
      · rw [outputs]
      · show (eqs.visit s n rest).work.queue.length < s.work.queue.length
        rw [work, front, List.length_cons]
        omega
    · have sinks : ∀ m, (eqs.visit s n rest).output m ≤ s.output m := h.output_visit_le desc hn
      refine Or.inl (Pi.lt_def.mpr ⟨fun m => sinks m.1, ⟨n, node⟩, ?_⟩)
      refine lt_of_le_of_ne (sinks n) ?_
      show (eqs.visit s n rest).output n ≠ s.output n
      rw [output_visit_self]
      exact same
  · refine Prod.Lex.toLex_lt_toLex.mpr (Or.inl ?_)
    show later.length < (n :: later).length
    rw [List.length_cons]
    omega

/-- **Runs come to an end**, with the invariant. -/
theorem settles [WellFoundedLT F] (loc : eqs.Local) (desc : eqs.Descends start sees)
    (h : eqs.Falling start seen ahead s) :
    ∃ s' seen' ahead', eqs.Settles s s' ∧ s'.work.poll? = none ∧
      eqs.Falling start seen' ahead' s' := by
  generalize hrank : rank eqs ahead s = r
  induction r using WellFoundedLT.induction generalizing seen ahead s with
  | ind r ih =>
    cases taken : s.work.poll? with
    | none => exact ⟨s, seen, ahead, .done taken, taken, h⟩
    | some next =>
      obtain ⟨n, rest⟩ := next
      have lower := h.rank_visit_lt loc desc taken
      rw [hrank] at lower
      obtain ⟨s', seen', ahead', run, done, h'⟩ := ih _ lower (h.visit loc desc taken) rfl
      exact ⟨s', seen', ahead', .visit taken run, done, h'⟩

end Falling

/-- **The run comes to an end at the greatest solution.** -/
theorem Descends.settles [DecidableEq N] [DecidableEq F] [WellFoundedLT F] {eqs : Equations N F}
    {start : N → F} {sees : F → F → Prop} (loc : eqs.Local) (desc : eqs.Descends start sees)
    (input : N → F) :
    ∃ s, eqs.Settles ⟨input, start, .ofList eqs.nodes⟩ s ∧ eqs.Solved s.input s.output ∧
      ∀ input output, eqs.Solved input output →
        ∀ n ∈ eqs.nodes, input n ≤ s.input n ∧ output n ≤ s.output n := by
  have first : eqs.Falling start [] eqs.nodes ⟨input, start, .ofList eqs.nodes⟩ := .init loc input
  obtain ⟨s, seen, ahead, run, done, h⟩ := first.settles loc desc
  obtain ⟨rfl, solved⟩ := h.toConsistent.solved done
  refine ⟨s, run, solved, ?_⟩
  intro input output solved' n hn
  have hseen : n ∈ seen := by
    rwa [h.nodes_eq, List.append_nil] at hn
  have below := h.above input output solved' n hseen
  refine ⟨below, ?_⟩
  rw [(solved' n hn).2, (solved n hn).2]
  exact desc.transfer_mono n hn below

end Equations

/-- An engine that shows the facts of the beginning comes to an end, with the facts of the greatest
solution. -/
theorem Engine.Implements.run_greatest {N F : Type} [PartialOrder F] [WellFoundedLT F]
    [DecidableEq N] [DecidableEq F] {e : Engine N F} {eqs : Equations N F}
    {Valid : Facts N F → Prop} {start : N → F} {sees : F → F → Prop} (impl : e.Implements eqs Valid)
    (loc : eqs.Local) (desc : eqs.Descends start sees) {st : Progress N F} {input : N → F}
    (shown : Shows eqs Valid st ⟨input, start, .ofList eqs.nodes⟩) :
    ∃ visits final input output, (∀ limit, visits ≤ limit → e.run limit st = .ok final) ∧
      (∀ n ∈ eqs.nodes, final.facts.input.get? n = some (input n) ∧
        final.facts.output.get? n = some (output n)) ∧
      eqs.Solved input output ∧
      ∀ input' output', eqs.Solved input' output' →
        ∀ n ∈ eqs.nodes, input' n ≤ input n ∧ output' n ≤ output n := by
  obtain ⟨s, settles, solved, greatest⟩ := desc.settles loc input
  obtain ⟨visits, final, run, shown'⟩ := impl.run loc settles (.start loc _ _) shown
  exact ⟨visits, final, s.input, s.output, run,
    fun n hn => ⟨shown'.input n hn, shown'.output n hn⟩, solved, greatest⟩

end StaticAnalysis.Dataflow
