import Mathlib.Data.List.Perm.Subperm
import StaticAnalysis.Dataflow.GenKill
import StaticAnalysis.Proofs.Dataflow.MaximalSolution

/-!
# Facts that are sets

There is no end to how far a set can grow, so that unions are meets with endless descent. But a
problem on sets mentions only finitely many elements, and a run never leaves the sets of these.

* `FinSet.Part` — the sets of elements of a given one; `Part.meetLaws` says that their union is a
  meet without endless descent.
* `Equations.Embeds` — equations over some facts as a part of equations over more of them.
  `Embeds.settles` carries runs over.
* `genKillWithin` — a problem on sets, cut down to the parts of a given set; `embeds_genKill` says
  that nothing is lost if the problem mentions no other elements.

**Main statement** (`genKill_settles`): a run of a problem on sets comes to an end, at the smallest
solution among the parts of a set that has all elements mentioned.
-/

namespace StaticAnalysis

namespace FinSet

variable {α : Type} [DecidableEq α] {s t : FinSet α}

theorem size_le_size (h : ∀ a, a ∈ s → a ∈ t) : s.size ≤ t.size := by
  induction s using Quotient.ind with
  | _ xs =>
  induction t using Quotient.ind with
  | _ ys =>
  have sub : distinct xs ⊆ distinct ys := fun a ha => mem_distinct.mpr (h a (mem_distinct.mp ha))
  exact (List.subperm_of_subset (nodup_distinct xs) sub).length_le

theorem size_lt_size (h : ∀ a, a ∈ s → a ∈ t) {b : α} (hb : b ∈ t) (new : ¬ b ∈ s) :
    s.size < t.size := by
  induction s using Quotient.ind with
  | _ xs =>
  induction t using Quotient.ind with
  | _ ys =>
  have nodup : (b :: distinct xs).Nodup :=
    List.nodup_cons.mpr ⟨fun hb' => new (mem_distinct.mp hb'), nodup_distinct xs⟩
  have sub : b :: distinct xs ⊆ distinct ys := by
    intro a ha
    rcases List.mem_cons.mp ha with rfl | ha
    · exact mem_distinct.mpr hb
    · exact mem_distinct.mpr (h a (mem_distinct.mp ha))
  exact (List.subperm_of_subset nodup sub).length_le

theorem mem_foldl_union {β : Type} {bs : List β} {f : β → FinSet α} {a : α} :
    a ∈ bs.foldl (fun s b => s.union (f b)) s ↔ a ∈ s ∨ ∃ b ∈ bs, a ∈ f b := by
  induction bs generalizing s with
  | nil => simp
  | cons b bs ih => rw [List.foldl_cons, ih, mem_union, or_assoc, List.exists_mem_cons_iff]

/-- The sets of elements of a given set. -/
abbrev Part (u : FinSet α) : Type := { s : FinSet α // ∀ a, a ∈ s → a ∈ u }

namespace Part

variable {u : FinSet α}

def union (s t : Part u) : Part u :=
  ⟨s.1.union t.1, fun a ha => (mem_union.mp ha).elim (s.2 a) (t.2 a)⟩

theorem mem_union {s t : Part u} {a : α} : a ∈ (s.union t).1 ↔ a ∈ s.1 ∨ a ∈ t.1 := FinSet.mem_union

omit [DecidableEq α] in
theorem ext {s t : Part u} (h : ∀ a, a ∈ s.1 ↔ a ∈ t.1) : s = t := Subtype.ext (FinSet.ext h)

/-- In the order of the union, smaller sets are above larger ones. -/
theorem union_eq_left {s t : Part u} : s.union t = s ↔ ∀ a, a ∈ t.1 → a ∈ s.1 := by
  constructor
  · intro h a ha
    rw [← h]
    exact mem_union.mpr (Or.inr ha)
  · intro h
    exact ext fun a => mem_union.trans ⟨fun ha => ha.elim id (h a), Or.inl⟩

theorem meetLaws : Dataflow.MeetLaws (union : Part u → Part u → Part u) where
  comm s t := ext fun a => by rw [mem_union, mem_union, or_comm]
  assoc r s t := ext fun a => by rw [mem_union, mem_union, mem_union, mem_union, or_assoc]
  idem s := ext fun a => by rw [mem_union, or_self]
  noDescent := by
    rintro ⟨facts, grows⟩
    have step : ∀ i, (facts i).1.size < (facts (i + 1)).1.size := by
      intro i
      have sub := union_eq_left.mp (grows i).1
      have more : ∃ b, b ∈ (facts (i + 1)).1 ∧ ¬ b ∈ (facts i).1 := by
        by_contra none
        push Not at none
        exact (grows i).2 (ext fun a => ⟨none a, sub a⟩)
      obtain ⟨b, hb, new⟩ := more
      exact size_lt_size sub hb new
    have large : ∀ i, i ≤ (facts i).1.size := by
      intro i
      induction i with
      | zero => exact Nat.zero_le _
      | succ i ih => exact Nat.succ_le_of_lt (Nat.lt_of_le_of_lt ih (step i))
    have bound := size_le_size (facts (u.size + 1)).2
    have beyond := large (u.size + 1)
    omega

end Part

/-- The elements of a set that belong to a given one. -/
def within (s u : FinSet α) : Part u := ⟨s.inter u, fun _ ha => (mem_inter.mp ha).2⟩

theorem mem_within {u : FinSet α} {a : α} : a ∈ (s.within u).1 ↔ a ∈ s ∧ a ∈ u := mem_inter

theorem within_eq {u : FinSet α} (h : ∀ a, a ∈ s → a ∈ u) : (s.within u).1 = s :=
  FinSet.ext fun a => mem_within.trans ⟨And.left, fun ha => ⟨ha, h a ha⟩⟩

end FinSet

namespace Dataflow

/-! ### Runs over some of the facts -/

section Embedding

variable {N F F' : Type}

/-- A snapshot with its facts seen as others. -/
def Snapshot.map (f : F → F') (s : Snapshot N F) : Snapshot N F' :=
  ⟨f ∘ s.input, f ∘ s.output, s.work⟩

/-- Equations whose facts are some of the facts of others, and which say the same of them. -/
structure Equations.Embeds (f : F → F') (eqs : Equations N F) (eqs' : Equations N F') : Prop where
  injective : Function.Injective f
  nodes : eqs'.nodes = eqs.nodes
  succs : eqs'.succs = eqs.succs
  gather : ∀ output n, eqs'.gather (f ∘ output) n = f (eqs.gather output n)
  transfer : ∀ n ∈ eqs.nodes, ∀ x, eqs'.transfer n (f x) = f (eqs.transfer n x)

namespace Equations.Embeds

variable {f : F → F'} {eqs : Equations N F} {eqs' : Equations N F'}

theorem solved (emb : eqs.Embeds f eqs') {input output : N → F} (h : eqs.Solved input output) :
    eqs'.Solved (f ∘ input) (f ∘ output) := by
  intro n hn
  rw [emb.nodes] at hn
  obtain ⟨gathered, applied⟩ := h n hn
  rw [emb.gather, ← gathered]
  refine ⟨rfl, ?_⟩
  show f (output n) = eqs'.transfer n (f (input n))
  rw [emb.transfer n hn, ← applied]

variable [DecidableEq N] [DecidableEq F] [DecidableEq F'] {s s' : Snapshot N F}

theorem visit (emb : eqs.Embeds f eqs') {n : N} (hn : n ∈ eqs.nodes) (rest : WorkList N) :
    eqs'.visit (s.map f) n rest = (eqs.visit s n rest).map f := by
  have changed : f (eqs.transfer n (eqs.gather s.output n)) ≠ f (s.output n) ↔
      eqs.transfer n (eqs.gather s.output n) ≠ s.output n := emb.injective.ne_iff
  simp only [Equations.visit, Snapshot.map, emb.gather, emb.transfer n hn, emb.succs,
    Function.comp_update, Function.comp_apply, changed]

/-- Runs over some of the facts are runs over all of them. -/
theorem settles (emb : eqs.Embeds f eqs') (loc : eqs.Local) (run : eqs.Settles s s') :
    ∀ {seen ahead : List N}, eqs.Consistent seen ahead s → eqs'.Settles (s.map f) (s'.map f) := by
  induction run with
  | done h =>
    intro seen ahead _
    exact .done h
  | visit taken _ ih =>
    intro seen ahead consistent
    refine .visit taken ?_
    rw [emb.visit (consistent.mem_nodes loc taken)]
    exact ih (consistent.visit loc taken)

end Equations.Embeds

end Embedding

/-! ### Problems with rules -/

section GenKill

variable {N α : Type} [DecidableEq α] (boundary initial : FinSet α) (rule : N → Rule α)

/-- The elements that a problem mentions on the nodes of a graph, other than to take them out. -/
def mentioned (nodes : List N) : FinSet α :=
  nodes.foldl (fun u n => u.union (rule n).gen) (boundary.union initial)

theorem mem_mentioned {nodes : List N} {x : α} :
    x ∈ mentioned boundary initial rule nodes ↔
      (x ∈ boundary ∨ x ∈ initial) ∨ ∃ n ∈ nodes, x ∈ (rule n).gen := by
  rw [mentioned, FinSet.mem_foldl_union, FinSet.mem_union]

/-- The problem in which every node has a rule, cut down to the parts of a set. -/
def genKillWithin (u : FinSet α) : Problem N u.Part where
  direction := .forward
  boundary := boundary.within u
  initial := initial.within u
  meet := .union
  transfer n s := ((rule n).apply s.1).within u

variable {boundary initial rule} {g : Cfg N}

theorem boundary_within_mentioned :
    (boundary.within (mentioned boundary initial rule g.nodes)).1 = boundary :=
  FinSet.within_eq fun _ hx => (mem_mentioned ..).mpr (Or.inl (Or.inl hx))

theorem initial_within_mentioned :
    (initial.within (mentioned boundary initial rule g.nodes)).1 = initial :=
  FinSet.within_eq fun _ hx => (mem_mentioned ..).mpr (Or.inl (Or.inr hx))

theorem genKillWithin_mono (u : FinSet α) (n : N) (s t : u.Part) (h : s.union t = s) :
    (((rule n).apply s.1).within u).union (((rule n).apply t.1).within u) =
      ((rule n).apply s.1).within u := by
  rw [FinSet.Part.union_eq_left] at h ⊢
  intro x hx
  rw [FinSet.mem_within, Rule.mem_apply] at hx ⊢
  exact ⟨hx.1.imp (fun hx => ⟨h x hx.1, hx.2⟩) id, hx.2⟩

variable [DecidableEq N]

/-- Within all elements mentioned, nothing is cut off. -/
theorem embeds_genKill (d : Direction) :
    Equations.Embeds Subtype.val
      ((genKillWithin boundary initial rule (mentioned boundary initial rule g.nodes)).equations g)
      ((genKill d .union boundary initial rule).equations g) where
  injective := Subtype.val_injective
  nodes := rfl
  succs := rfl
  gather output n := by
    show (if n = g.entry then boundary else _) = Subtype.val (if n = g.entry then _ else _)
    split
    · exact boundary_within_mentioned.symm
    · have hom : (g.predsOf n).foldl (fun s m => s.union (output m).1) (initial.within _).1 =
          ((g.predsOf n).foldl (fun s m => s.union (output m)) (initial.within _)).1 :=
        List.foldl_hom Subtype.val fun _ _ => rfl
      rw [initial_within_mentioned] at hom
      exact hom
  transfer n hn s := by
    refine (FinSet.within_eq fun x hx => ?_).symm
    rcases Rule.mem_apply.mp hx with ⟨hx, -⟩ | hx
    · exact s.2 x hx
    · exact (mem_mentioned ..).mpr (Or.inr ⟨n, hn, hx⟩)

variable (boundary initial rule) in
/-- **Runs of a problem on sets come to an end at a smallest solution.** -/
theorem genKill_settles (h : g.Coherent) (d : Direction) :
    let u := mentioned boundary initial rule g.nodes
    let eqs := (genKill d .union boundary initial rule).equations g
    ∃ s,
      eqs.Settles
        ⟨fun n => if n = g.entry then boundary else initial, fun _ => initial, .ofList g.nodes⟩ s ∧
      eqs.Solved s.input s.output ∧
      ∀ input output : N → u.Part,
        ((genKillWithin boundary initial rule u).equations g).Solved input output →
        ∀ n ∈ g.nodes, ∀ x, x ∈ s.output n → x ∈ (output n).1 := by
  intro u eqs
  let p := genKillWithin boundary initial rule u
  have laws : MeetLaws p.meet := FinSet.Part.meetLaws
  let _ := laws.semilattice
  have _ := laws.wellFoundedLT
  have emb : (p.equations g).Embeds Subtype.val eqs := embeds_genKill d
  have loc := p.equations_local h
  have desc := p.descends h laws fun n _ => genKillWithin_mono u n
  obtain ⟨s, run, solved, greatest⟩ := desc.settles loc fun n =>
    if n = g.entry then boundary.within u else initial.within u
  refine ⟨s.map Subtype.val, ?_, emb.solved solved, ?_⟩
  · have start := emb.settles loc run (.start loc _ _)
    have first :
        Subtype.val ∘ (fun n => if n = g.entry then boundary.within u else initial.within u) =
        fun n => if n = g.entry then boundary else initial := by
      funext n
      show Subtype.val (if n = g.entry then _ else _) = _
      split
      · exact boundary_within_mentioned
      · exact initial_within_mentioned
    have others : Subtype.val ∘ (fun _ : N => p.initial) = fun _ => initial :=
      funext fun _ => initial_within_mentioned
    rw [Snapshot.map, first, others] at start
    exact start
  · intro input output solved' n hn x hx
    exact FinSet.Part.union_eq_left.mp (greatest input output solved' n hn).2 x hx

end GenKill

end Dataflow

end StaticAnalysis
