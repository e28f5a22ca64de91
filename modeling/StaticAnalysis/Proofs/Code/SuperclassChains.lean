import StaticAnalysis.Proofs.CallGraph.Subtypes

/-!
# Chains of superclasses

The superclasses of a class form a chain that may end, or run into a cycle and go on for ever. The
walks up this chain remember the classes that they have met; here they are compared with the chain
itself, which remembers nothing.

* `ascend` — the class `n` steps up, for every `n`. `OnCycle` — a class that is above itself.
* `Climbs`, `Rises`, `Finds` — the walks without a limit on their steps. `climbs_climb` and
  `rises_summit` say that they end: a class that has a superclass is declared, and every step meets
  one that was not met before.
* `Climbs.ascend_eq`, `Climbs.above_mem` — a walk follows the chain, and **what it has met is closed
  upward**, so that the walk does not stop before a class that the chain reaches later
  (`mem_chain`).
* `Rises.ends` — the walk to the top ends at a top or on a cycle.

**Main statement** (`dispatch_and_root_follow_chain`): dispatch finds the first method with a body
on the whole chain, and the root is the top of the chain or, if there is none, a class of its cycle.
-/

namespace StaticAnalysis

section Chains

/-- The class `n` steps up from a class, if the way goes so far. -/
def ascend (up : Class → Option Class) : Nat → Class → Option Class
  | 0, c => some c
  | n + 1, c => (up c).bind (ascend up n)

/-- A class that is met again on the way up from itself. -/
def OnCycle (up : Class → Option Class) (c : Class) : Prop := ∃ n, 0 < n ∧ ascend up n c = some c

variable {up : Class → Option Class} {seen : List Class} {c d r : Class} {n : Nat}

/-! ### The chain -/

theorem ascend_succ (above : up c = some d) (n : Nat) : ascend up (n + 1) c = ascend up n d := by
  rw [ascend, above]
  rfl

theorem ascend_add (m n : Nat) (c : Class) :
    ascend up (m + n) c = (ascend up m c).bind (ascend up n) := by
  induction m generalizing c with
  | zero =>
    rw [Nat.zero_add]
    rfl
  | succ m ih =>
    have tail : ascend up (m + n) = fun d => (ascend up m d).bind (ascend up n) := funext ih
    rw [Nat.succ_add, ascend, tail, ascend, Option.bind_assoc]

/-- One step further up. -/
theorem ascend_step (h : ascend up n c = some d) : ascend up (n + 1) c = up d := by
  have one : ascend up 1 d = up d := Option.bind_fun_some (up d)
  rw [ascend_add, h, Option.bind_some, one]

/-- There is nothing above a class without superclass. -/
theorem ascend_of_top (h : ascend up n c = some d) (top : up d = none) {k : Nat} (further : n < k) :
    ascend up k c = none := by
  obtain ⟨j, rfl⟩ := Nat.exists_eq_add_of_lt further
  rw [show n + j + 1 = (n + 1) + j from by omega, ascend_add, ascend_step h, top]
  rfl

/-- From a class on a cycle the way goes on for ever. -/
theorem OnCycle.ascend_ne_none (h : OnCycle up c) (k : Nat) : ascend up k c ≠ none := by
  obtain ⟨n, pos, back⟩ := h
  -- the way comes back after `n` steps, so a way of `k` steps is as good as one of `n + k`
  induction k using Nat.strongRecOn with
  | ind k ih =>
    by_cases short : k ≤ n
    · intro ended
      obtain ⟨j, rfl⟩ := Nat.exists_eq_add_of_le short
      rw [ascend_add, ended] at back
      cases back
    · obtain ⟨j, rfl⟩ := Nat.exists_eq_add_of_le (Nat.le_of_not_le short)
      rw [ascend_add, back]
      exact ih j (by omega)

/-- **A chain has one end at most**: if it has a top, then there is no cycle above, nor another
top. -/
theorem eq_of_top {m : Nat} (h : ascend up n c = some d) (top : up d = none)
    (hr : ascend up m c = some r) (ends : up r = none ∨ OnCycle up r) : r = d := by
  rcases ends with rtop | cycle
  · rcases Nat.lt_trichotomy n m with lt | rfl | gt
    · rw [ascend_of_top h top lt] at hr
      cases hr
    · exact Option.some.inj (hr.symm.trans h)
    · rw [ascend_of_top hr rtop gt] at h
      cases h
  · have beyond : ascend up (m + (n + 1)) c = none := ascend_of_top h top (by omega)
    rw [ascend_add, hr] at beyond
    exact absurd beyond (cycle.ascend_ne_none (n + 1))

/-! ### Walks without a limit -/

/-- The walk up that lists the classes it meets, and stops before one that it has met. -/
inductive Climbs (up : Class → Option Class) : List Class → Class → List Class → Prop where
  | met {seen : List Class} {c : Class} (known : c ∈ seen) : Climbs up seen c []
  | top {seen : List Class} {c : Class} (new : c ∉ seen) (top : up c = none) : Climbs up seen c [c]
  | next {seen chain : List Class} {c d : Class} (new : c ∉ seen) (above : up c = some d)
      (later : Climbs up (c :: seen) d chain) : Climbs up seen c (c :: chain)

/-- The walk up to a class without superclass, or to one that it has met. -/
inductive Rises (up : Class → Option Class) : List Class → Class → Class → Prop where
  | top {seen : List Class} {c : Class} (top : up c = none) : Rises up seen c c
  | met {seen : List Class} {c d : Class} (above : up c = some d) (known : c ∈ seen) :
      Rises up seen c c
  | next {seen : List Class} {c d r : Class} (above : up c = some d) (new : c ∉ seen)
      (later : Rises up (c :: seen) d r) : Rises up seen c r

/-- The walk up to the first class that has something to give, stopping before a class that it has
met. -/
inductive Finds {α : Type} (up : Class → Option Class) (gives : Class → Option α) :
    List Class → Class → Option α → Prop where
  | met {seen : List Class} {c : Class} (known : c ∈ seen) : Finds up gives seen c none
  | found {seen : List Class} {c : Class} {a : α} (new : c ∉ seen) (here : gives c = some a) :
      Finds up gives seen c (some a)
  | top {seen : List Class} {c : Class} (new : c ∉ seen) (here : gives c = none)
      (top : up c = none) :
      Finds up gives seen c none
  | next {seen : List Class} {c d : Class} {found : Option α} (new : c ∉ seen)
      (here : gives c = none) (above : up c = some d) (later : Finds up gives (c :: seen) d found) :
      Finds up gives seen c found

/-- Looking for the first thing on the list of a walk is a walk that stops there. -/
theorem Climbs.finds {α : Type} {chain : List Class} (h : Climbs up seen c chain)
    (gives : Class → Option α) : Finds up gives seen c (chain.findSome? gives) := by
  induction h with
  | met known => exact .met known
  | @top seen c new top =>
    cases here : gives c with
    | none =>
      rw [List.findSome?_cons, here]
      exact .top new here top
    | some a =>
      rw [List.findSome?_cons, here]
      exact .found new here
  | @next seen chain c d new above later ih =>
    cases here : gives c with
    | none =>
      rw [List.findSome?_cons, here]
      exact .next new here above ih
    | some a =>
      rw [List.findSome?_cons, here]
      exact .found new here

/-! ### Walks end -/

/-- A class that is met for the first time need not be met any more. -/
theorem length_unseen_cons {all : List Class} (mem : c ∈ all) (new : c ∉ seen) :
    (unseen all (c :: seen)).length < (unseen all seen).length := by
  have rest : unseen all (c :: seen) = (unseen all seen).filter fun a => decide (a ≠ c) := by
    rw [unseen, unseen, List.filter_filter]
    refine List.filter_congr ?_
    intro a _
    by_cases hc : a = c <;> by_cases hseen : a ∈ seen <;> simp [hc, hseen]
  rw [rest, List.length_filter_lt_length_iff_exists]
  refine ⟨c, ?_, by simp⟩
  simp [unseen, mem, new]

section Enough

variable {all : List Class} (named : ∀ c d, up c = some d → c ∈ all)

include named

/-- **The walk ends**, since it may make a step for every class with a superclass that it has not
met. -/
theorem climbs_climb (n : Nat) (seen : List Class) (c : Class)
    (enough : (unseen all seen).length < n) : Climbs up seen c (climb up n seen c) := by
  induction n generalizing seen c with
  | zero => omega
  | succ n ih =>
    rw [climb]
    by_cases known : c ∈ seen
    · rw [if_pos known]
      exact .met known
    · rw [if_neg known]
      cases above : up c with
      | none => exact .top known above
      | some d =>
        have fewer := length_unseen_cons (named c d above) known
        exact .next known above (ih (c :: seen) d (by omega))

theorem rises_summit (n : Nat) (seen : List Class) (c : Class)
    (enough : (unseen all seen).length < n) : Rises up seen c (summit up n seen c) := by
  induction n generalizing seen c with
  | zero => omega
  | succ n ih =>
    rw [summit]
    cases above : up c with
    | none => exact .top above
    | some d =>
      show Rises up seen c (if c ∈ seen then c else summit up n (c :: seen) d)
      by_cases known : c ∈ seen
      · rw [if_pos known]
        exact .met above known
      · rw [if_neg known]
        have fewer := length_unseen_cons (named c d above) known
        exact .next above known (ih (c :: seen) d (by omega))

end Enough

/-! ### Walks follow the chain -/

namespace Climbs

variable {chain : List Class}

/-- The classes are listed in the order of the chain. -/
theorem ascend_eq (h : Climbs up seen c chain) {i : Nat} (hd : chain[i]? = some d) :
    ascend up i c = some d := by
  induction h generalizing i with
  | met known => cases hd
  | top new top =>
    cases i with
    | zero => exact hd
    | succ i => cases hd
  | next new above later ih =>
    cases i with
    | zero => exact hd
    | succ i =>
      rw [ascend_succ above]
      exact ih hd

theorem self_mem (h : Climbs up seen c chain) : c ∈ seen ∨ c ∈ chain := by
  cases h with
  | met known => exact Or.inl known
  | top new top => exact Or.inr List.mem_cons_self
  | next new above later => exact Or.inr List.mem_cons_self

/-- **What a walk has met is closed upward.** -/
theorem above_mem (h : Climbs up seen c chain) {e : Class} (hd : d ∈ chain)
    (above : up d = some e) : e ∈ seen ∨ e ∈ chain := by
  induction h with
  | met known => exact absurd hd List.not_mem_nil
  | top new top =>
    rw [List.mem_singleton.mp hd, top] at above
    cases above
  | @next seen chain c b new link later ih =>
    -- the superclass of `c` begins the rest of the walk; what is above the others, the rest has met
    -- or `c` itself is
    have placed : e ∈ c :: seen ∨ e ∈ chain := by
      rcases List.mem_cons.mp hd with rfl | hd
      · rw [Option.some.inj (above.symm.trans link)]
        exact later.self_mem
      · exact ih hd
    rcases placed with known | later
    · rcases List.mem_cons.mp known with rfl | known
      · exact Or.inr List.mem_cons_self
      · exact Or.inl known
    · exact Or.inr (List.mem_cons_of_mem c later)

/-- A walk that had met nothing before meets every class of the chain. -/
theorem mem_iff (h : Climbs up [] c chain) : d ∈ chain ↔ ∃ n, ascend up n c = some d := by
  constructor
  · intro hd
    obtain ⟨i, hi⟩ := List.mem_iff_getElem?.mp hd
    exact ⟨i, h.ascend_eq hi⟩
  · intro ⟨n, hn⟩
    induction n generalizing d with
    | zero =>
      cases hn
      exact h.self_mem.resolve_left List.not_mem_nil
    | succ n ih =>
      cases below : ascend up n c with
      | none =>
        rw [ascend_add, below] at hn
        cases hn
      | some b =>
        rw [ascend_step below] at hn
        exact (h.above_mem (ih below) hn).resolve_left List.not_mem_nil

end Climbs

/-- **The walk to the top ends on the chain, at a class without superclass or on a cycle.** All
classes that it has met lead to where it stands. -/
theorem Rises.ends (h : Rises up seen c r)
    (lead : ∀ b ∈ seen, ∃ k, 0 < k ∧ ascend up k b = some c) :
    (∃ n, ascend up n c = some r) ∧ (up r = none ∨ OnCycle up r) := by
  induction h with
  | top top => exact ⟨⟨0, rfl⟩, Or.inl top⟩
  | met above known => exact ⟨⟨0, rfl⟩, Or.inr (lead _ known)⟩
  | @next seen c d r above new later ih =>
    have lead' : ∀ b ∈ c :: seen, ∃ k, 0 < k ∧ ascend up k b = some d := by
      intro b hb
      rcases List.mem_cons.mp hb with rfl | hb
      · exact ⟨1, Nat.one_pos, ascend_succ above 0⟩
      · obtain ⟨k, -, hk⟩ := lead b hb
        exact ⟨k + 1, Nat.succ_pos k, (ascend_step hk).trans above⟩
    obtain ⟨⟨n, hn⟩, last⟩ := ih lead'
    exact ⟨⟨n + 1, (ascend_succ above n).trans hn⟩, last⟩

end Chains

/-! ### The classes of a code base -/

namespace CodeBase

/-- The class `n` steps above a class: itself, its superclass, the superclass of that, and so on. -/
def superAt (code : CodeBase) (c : Class) (n : Nat) : Option Class := ascend code.superOf n c

section Dispatch

variable {code : CodeBase} {c d : Class} {s : String}

/-- Only declared classes have superclasses. -/
theorem mem_keys_of_superOf (h : code.superOf c = some d) : c ∈ code.classes.keys := by
  by_contra missing
  rw [superOf, info, Table.getD, Table.get?_of_not_mem_keys missing] at h
  cases h

theorem unseen_lt_climbLimit (code : CodeBase) :
    (unseen code.classes.keys []).length < code.climbLimit := by
  have fits : (unseen code.classes.keys []).length ≤ code.classes.keys.length :=
    List.length_filter_le _ _
  have count : code.classes.keys.length = code.classes.size := List.length_map _
  rw [climbLimit]
  omega

theorem climbs_chain (code : CodeBase) (c : Class) : Climbs code.superOf [] c (code.chain c) :=
  climbs_climb (fun _ _ => mem_keys_of_superOf) _ _ _ code.unseen_lt_climbLimit

theorem rises_rootOf (code : CodeBase) (c : Class) : Rises code.superOf [] c (code.rootOf c) :=
  rises_summit (fun _ _ => mem_keys_of_superOf) _ _ _ code.unseen_lt_climbLimit

/-- **The walk meets the whole chain.** -/
theorem mem_chain : d ∈ code.chain c ↔ ∃ n, code.superAt c n = some d :=
  (code.climbs_chain c).mem_iff

theorem concrete?_eq_some {m : Method} :
    code.concrete? d s = some m ↔ code.declared? d s = some m ∧ m.isAbstract = false := by
  rw [concrete?, Option.filter_eq_some_iff, Bool.not_eq_true']

theorem concrete?_eq_none :
    code.concrete? d s = none ↔ ∀ m, code.declared? d s = some m → m.isAbstract = true := by
  rw [concrete?, Option.filter_eq_none_iff]
  simp

/-- Dispatch finds nothing if no class of the chain has a method with a body. -/
theorem dispatch_eq_none :
    code.dispatch c s = none ↔ ∀ n d, code.superAt c n = some d → code.concrete? d s = none := by
  rw [dispatch, List.findSome?_eq_none_iff]
  constructor
  · intro none n d hd
    exact none d (mem_chain.mpr ⟨n, hd⟩)
  · intro none d hd
    obtain ⟨n, hn⟩ := mem_chain.mp hd
    exact none n d hn

/-- What dispatch finds comes from the chain, and nothing before it has a body. -/
theorem exists_of_dispatch {m : Method} (h : code.dispatch c s = some m) :
    ∃ n d, code.superAt c n = some d ∧ code.concrete? d s = some m ∧
      ∀ k < n, ∀ e, code.superAt c k = some e → code.concrete? e s = none := by
  obtain ⟨before, d, after, parts, here, earlier⟩ := List.findSome?_eq_some_iff.mp h
  have place : ∀ i e, (code.chain c)[i]? = some e → code.superAt c i = some e :=
    fun i e he => (code.climbs_chain c).ascend_eq he
  refine ⟨before.length, d, place _ _ (by rw [parts]; simp), here, ?_⟩
  intro k hk e he
  have there : (code.chain c)[k]? = some before[k] := by
    rw [parts, List.getElem?_append_left hk, List.getElem?_eq_getElem hk]
  rw [Option.some.inj (he.symm.trans (place _ _ there))]
  exact earlier _ (List.getElem_mem hk)

/-- **Dispatch finds the first method with a body on the chain.** -/
theorem dispatch_eq_some {m : Method} : code.dispatch c s = some m ↔
    ∃ n d, code.superAt c n = some d ∧ code.concrete? d s = some m ∧
      ∀ k < n, ∀ e, code.superAt c k = some e → code.concrete? e s = none := by
  refine ⟨exists_of_dispatch, ?_⟩
  intro ⟨n, d, hd, here, earlier⟩
  cases result : code.dispatch c s with
  | none =>
    rw [dispatch_eq_none.mp result n d hd] at here
    cases here
  | some m' =>
    -- of two first places neither is before the other
    obtain ⟨n', d', hd', here', earlier'⟩ := exists_of_dispatch result
    rcases Nat.lt_trichotomy n n' with lt | rfl | gt
    · rw [earlier' n lt d hd] at here
      cases here
    · cases Option.some.inj (hd.symm.trans hd')
      exact here'.symm.trans here
    · rw [earlier n' gt d' hd'] at here'
      cases here'

end Dispatch

/-- **Dispatch and the root follow the chain of superclasses, cyclic or not.** The superclass links
of a code base may be any. For every class:

* the search for a method comes to an end, and dispatch is what it finds;
* dispatch gives a method if and only if this is the method with a body that some class of the chain
  declares under the subsignature, and no class before it on the chain declares one with a body;
* it gives none if and only if no class of the chain declares one with a body;
* the walk to the root comes to an end, and the root is where it ends;
* the root is the only class without superclass on the chain, if there is any; if there is none, it
  is a class of the chain that lies on a cycle. -/
theorem dispatch_and_root_follow_chain (code : CodeBase) (c : Class) :
    (∀ s, Finds code.superOf (code.concrete? · s) [] c (code.dispatch c s)) ∧
    (∀ s m, code.dispatch c s = some m ↔
      ∃ n d, code.superAt c n = some d ∧ code.declared? d s = some m ∧ m.isAbstract = false ∧
        ∀ k < n, ∀ e, code.superAt c k = some e → ∀ m', code.declared? e s = some m' →
          m'.isAbstract = true) ∧
    (∀ s, code.dispatch c s = none ↔
      ∀ n d, code.superAt c n = some d → ∀ m, code.declared? d s = some m → m.isAbstract = true) ∧
    Rises code.superOf [] c (code.rootOf c) ∧
    (∀ d, (∃ n, code.superAt c n = some d) → code.superOf d = none → code.rootOf c = d) ∧
    ((∀ n d, code.superAt c n = some d → code.superOf d ≠ none) →
      ∃ n, code.superAt c n = some (code.rootOf c) ∧
        ∃ k, 0 < k ∧ code.superAt (code.rootOf c) k = some (code.rootOf c)) := by
  have walk := code.rises_rootOf c
  obtain ⟨⟨n, reached⟩, ends⟩ := walk.ends fun b hb => absurd hb List.not_mem_nil
  refine ⟨?_, ?_, ?_, walk, ?_, ?_⟩
  · intro s
    exact (code.climbs_chain c).finds (code.concrete? · s)
  · intro s m
    simp only [dispatch_eq_some, concrete?_eq_some, concrete?_eq_none, and_assoc]
  · intro s
    simp only [dispatch_eq_none, concrete?_eq_none]
  · intro d ⟨k, hd⟩ top
    exact eq_of_top hd top reached ends
  · intro endless
    exact ⟨n, reached, ends.resolve_left (endless n _ reached)⟩

/-! ### A vine

`Leaf` is below `Stem`, from which the way up leads round between `Hoop` and `Ring` for ever. `Leaf`
and `Hoop` declare `grow` without a body, `Ring` with one; `fade` has none anywhere. `Bud` is below
`Root`, where the way ends. -/

namespace Vine

def leaf : Class := ⟨0, "Leaf", false, false⟩

def stem : Class := ⟨1, "Stem", false, true⟩

def hoop : Class := ⟨2, "Hoop", false, true⟩

def ring : Class := ⟨3, "Ring", false, false⟩

def bud : Class := ⟨4, "Bud", false, false⟩

def root : Class := ⟨5, "Root", false, false⟩

def method (index : Nat) (name : String) (owner : Class) (isAbstract : Bool) : Method :=
  ⟨index, name, owner, [], [], .void, false, isAbstract⟩

def code : CodeBase where
  classes := ⟨[
    (leaf, { links := { superclass := stem },
             methods := ⟨[("void grow()", method 0 "grow" leaf true)]⟩ }),
    (stem, { links := { superclass := hoop },
             methods := ⟨[("void fade()", method 1 "fade" stem true)]⟩ }),
    (hoop, { links := { superclass := ring },
             methods := ⟨[("void grow()", method 2 "grow" hoop true)]⟩ }),
    (ring, { links := { superclass := hoop },
             methods := ⟨[("void grow()", method 3 "grow" ring false)]⟩ }),
    (bud, { links := { superclass := root } }), (root, {})]⟩

end Vine

/-- In the vine a leaf grows like the ring three steps above it and does not fade. Its root lies on
the cycle; that of a bud is the class `Root`. -/
theorem dispatch_and_root_follow_chain_vine :
    Vine.code.dispatch Vine.leaf "void grow()" = some (Vine.method 3 "grow" Vine.ring false) ∧
    Vine.code.superAt Vine.leaf 3 = some Vine.ring ∧
    Vine.code.dispatch Vine.leaf "void fade()" = none ∧
    (∀ n d, Vine.code.superAt Vine.leaf n = some d → Vine.code.superOf d ≠ none) ∧
    (∃ n, Vine.code.superAt Vine.leaf n = some (Vine.code.rootOf Vine.leaf) ∧
      ∃ k, 0 < k ∧ Vine.code.superAt (Vine.code.rootOf Vine.leaf) k =
        some (Vine.code.rootOf Vine.leaf)) ∧
    Vine.code.rootOf Vine.bud = Vine.root := by
  have endless : ∀ n d, Vine.code.superAt Vine.leaf n = some d → Vine.code.superOf d ≠ none := by
    have all : ∀ d ∈ Vine.code.chain Vine.leaf, Vine.code.superOf d ≠ none := by decide +kernel
    exact fun n d hd => all d (mem_chain.mpr ⟨n, hd⟩)
  have faded : ∀ n d, Vine.code.superAt Vine.leaf n = some d →
      ∀ m, Vine.code.declared? d "void fade()" = some m → m.isAbstract = true := by
    have all : ∀ d ∈ Vine.code.chain Vine.leaf, Vine.code.concrete? d "void fade()" = none := by
      decide +kernel
    exact fun n d hd => concrete?_eq_none.mp (all d (mem_chain.mpr ⟨n, hd⟩))
  obtain ⟨-, grows, fades, -, -, cyclic⟩ := dispatch_and_root_follow_chain Vine.code Vine.leaf
  obtain ⟨-, -, -, -, top, -⟩ := dispatch_and_root_follow_chain Vine.code Vine.bud
  refine ⟨(grows _ _).mpr ⟨3, Vine.ring, by decide +kernel, by decide +kernel, rfl, ?_⟩,
    by decide +kernel, (fades _).mpr faded, endless, cyclic endless,
    top Vine.root ⟨1, by decide +kernel⟩ (by decide +kernel)⟩
  have earlier : ∀ k < 3, ∀ e ∈ Vine.code.superAt Vine.leaf k,
      Vine.code.concrete? e "void grow()" = none := by
    decide +kernel
  exact fun k hk e he => concrete?_eq_none.mp (earlier k hk e he)

end CodeBase

end StaticAnalysis
