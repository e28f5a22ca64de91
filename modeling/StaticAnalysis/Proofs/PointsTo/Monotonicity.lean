import StaticAnalysis.Proofs.PointsTo.Coarsening

/-!
# More code, more facts

Two analyses that choose the same contexts, of a program and of one that has more statements in its
methods and more entries. Neither the order of the statements and of the entries nor the orders in
which sets are gone through are tied to each other.

* `CodeBase.resolveCallee_of_classes` — which method a call runs depends on the classes alone.
* `Coarsening.same` — the map that leaves all contexts as they are; it maps every fact to itself.
* `Rules.MeetsGap.extend` — what stops an analysis stops the one of the larger program.

**Main statement** (`analysis_monotone`): the larger program has all the facts of the smaller one,
so that two programs with the same statements and entries, in whatever orders, have the same facts.
-/

namespace StaticAnalysis

/-- Which method a call runs depends on the classes and what they declare, not on the bodies. -/
theorem CodeBase.resolveCallee_of_classes {code code' : CodeBase} (h : code'.classes = code.classes)
    (type : Ty) (call : Call) : code'.resolveCallee type call = code.resolveCallee type call := by
  have info : code'.info = code.info := by
    funext c
    rw [CodeBase.info, CodeBase.info, h]
  have chain : code'.chain = code.chain := by
    funext c
    unfold CodeBase.chain CodeBase.climbLimit CodeBase.superOf
    rw [h, info]
  have root : code'.rootOf = code.rootOf := by
    funext c
    unfold CodeBase.rootOf CodeBase.climbLimit CodeBase.superOf
    rw [h, info]
  have dispatch : code'.dispatch = code.dispatch := by
    funext c subsignature
    unfold CodeBase.dispatch CodeBase.concrete? CodeBase.declared?
    rw [chain, info]
  unfold CodeBase.resolveCallee
  rw [dispatch, root]

theorem CodeBase.PartOf.of_classes {code code' : CodeBase} (classes : code'.classes = code.classes)
    (stmts : ∀ m, (code.body m).stmts ⊆ (code'.body m).stmts) : code.PartOf code' :=
  ⟨fun m _ hs => stmts m hs, resolveCallee_of_classes classes⟩

/-! ### The contexts of equal selectors -/

namespace Coarsening

/-- All contexts are left as they are. -/
def same {fine coarse : Selector} (h : coarse = fine) : Coarsening fine coarse where
  method := id
  heap := id
  method_nil := rfl
  heapContext_method c := by
    rw [h]
    rfl
  calleeContext_method c s receiver := by
    have kept : receiver.map (HeapObj.mapContext id) = receiver := by
      cases receiver <;> rfl
    rw [kept, h]
    exact (congrFun Option.map_id _).symm

theorem pointer_same {fine coarse : Selector} (h : coarse = fine) (p : Pointer) :
    (same h).pointer p = p := by
  cases p <;> rfl

theorem fact_same {fine coarse : Selector} (h : coarse = fine) (f : PointsTo.Fact) :
    (same h).fact f = f := by
  cases f with
  | reached m => rfl
  | called e => rfl
  | flows p q =>
    show PointsTo.Fact.flows ((same h).pointer p) ((same h).pointer q) = .flows p q
    rw [pointer_same, pointer_same]
  | pointsTo p o =>
    show PointsTo.Fact.pointsTo ((same h).pointer p) o = .pointsTo p o
    rw [pointer_same]

end Coarsening

namespace PointsTo

/-! ### Larger programs -/

section Extension

variable {rules rules' : Rules} {entries entries' : List Method}
  (selector : rules'.selector = rules.selector) (part : rules.code.PartOf rules'.code)
  (more : entries ⊆ entries')

include selector part more

theorem Rules.Derivable.extend {f : Fact} (h : rules.Derivable entries f) :
    rules'.Derivable entries' f := by
  have mapped := (Coarsening.same selector).derivable part (fun _ hm => more hm) h
  rwa [Coarsening.fact_same] at mapped

theorem Rules.MeetsGap.extend (h : rules.MeetsGap entries) : rules'.MeetsGap entries' := by
  obtain ⟨m, reached, s, mem, gap⟩ := h
  exact ⟨m, reached.extend selector part more, s, part.stmts m.2 s mem, gap⟩

/-- What the analysis of a program has found out, the one of a larger program has found out, too. -/
theorem holds_extend {n n' : Nat} {st st' : State} (h : rules.analyze n {} entries = .finished st)
    (h' : rules'.analyze n' {} entries' = .finished st') {f : Fact} (hf : st.Holds f) :
    st'.Holds f :=
  ((derivable_of_finished h hf).extend selector part more).mem_of_closed (closed_of_finished h')

end Extension

/-- **The pointer analysis is monotone in the program and does not depend on orders.** Take two
programs with the same classes, where every body of the second has all the statements of the first
at whatever places, and every entry of the first is one of the second. Analyse both under contexts
chosen alike, each with its own orders of going through sets.

* Both analyses have results, unless the second meets a reachable statement with an open operand.
* Whatever the first finds out (a reachable method, a call edge, a flow edge, an object of a
  pointer), the second finds out.
* If the second program has no other statements and entries than the first, then both find out the
  same. -/
theorem analysis_monotone (rules rules' : Rules) (entries entries' : List Method)
    (selector : rules'.selector = rules.selector) (decides : ∀ k, rules.selector ≠ .undecided k)
    (classes : rules'.code.classes = rules.code.classes)
    (stmts : ∀ m, (rules.code.body m).stmts ⊆ (rules'.code.body m).stmts)
    (more : entries ⊆ entries')
    (known : ∀ m, ∀ s ∈ (rules'.code.body m).stmts, s.isUnknown = false) :
    (rules'.MeetsGap entries' ∨
      ∃ n st st', rules.analyze n {} entries = .finished st ∧
        rules'.analyze n {} entries' = .finished st') ∧
    ∀ n n' st st', rules.analyze n {} entries = .finished st →
      rules'.analyze n' {} entries' = .finished st' →
        (∀ f, st.Holds f → st'.Holds f) ∧
        ((∀ m, (rules'.code.body m).stmts ⊆ (rules.code.body m).stmts) → entries' ⊆ entries →
          ∀ f, st.Holds f ↔ st'.Holds f) := by
  have part : rules.code.PartOf rules'.code := .of_classes classes stmts
  refine ⟨?_, ?_⟩
  · by_cases gap : rules'.MeetsGap entries'
    · exact Or.inl gap
    · have gapless : ¬ rules.MeetsGap entries := fun h => gap (h.extend selector part more)
      have decides' : ∀ k, rules'.selector ≠ .undecided k := by
        rw [selector]
        exact decides
      obtain ⟨n, st, run⟩ :=
        analyze_finishes_from .start decides (fun m s hs => known m s (stmts m hs)) gapless
      obtain ⟨n', st', run'⟩ := analyze_finishes_from .start decides' known gap
      exact Or.inr ⟨max n n', st, st', run _ (Nat.le_max_left n n'), run' _ (Nat.le_max_right n n')⟩
  · intro n n' st st' h h'
    refine ⟨fun f => holds_extend selector part more h h', ?_⟩
    intro stmts' more' f
    have part' : rules'.code.PartOf rules.code := .of_classes classes.symm stmts'
    exact ⟨holds_extend selector part more h h', holds_extend selector.symm part' more' h' h⟩

namespace Sample

/-- The sample program with the statements of its methods turned round. -/
def reversedCode : CodeBase :=
  { code with
    bodies :=
      ⟨[(main, { stmts := mainStmts.reverse }), (follow, { stmts := followStmts.reverse })]⟩ }

/-- The analysis of the sample program turned round. It also takes objects and pointers the other
way. -/
def reversedRules (selector : Selector) : Rules where
  code := reversedCode
  selector := selector
  objectOrder := ⟨fun _ xs => xs.reverse, fun _ xs => xs.reverse_perm⟩
  pointerOrder := ⟨fun _ xs => xs.reverse, fun _ xs => xs.reverse_perm⟩

theorem mem_stmts_reversedCode (m : Method) (s : Stmt) :
    s ∈ (reversedCode.body m).stmts ↔ s ∈ (code.body m).stmts := by
  have bodies : ∀ b b' : Body, CodeBase.body
      { code with bodies := ⟨[(main, b), (follow, b')]⟩ } m
        = if main = m then b else if follow = m then b' else {} := by
    intro b b'
    unfold CodeBase.body Table.getD Table.get? Table.find Table.find Table.find
    split
    · rfl
    · split <;> rfl
  have turned : reversedCode.body m
      = if main = m then { stmts := mainStmts.reverse }
        else if follow = m then { stmts := followStmts.reverse } else {} := bodies _ _
  have plain : code.body m = if main = m then { stmts := mainStmts }
      else if follow = m then { stmts := followStmts } else {} := bodies _ _
  rw [turned, plain]
  split
  · exact List.mem_reverse
  · split
    · exact List.mem_reverse
    · exact Iff.rfl

end Sample

/-- The sample program and the one turned round have the same facts, and both are analysed to the
end. -/
theorem analysis_monotone_sample :
    ∃ st st', (Sample.rules (.objectChain 2)).analyze 90 {} [Sample.main] = .finished st ∧
      (Sample.reversedRules (.objectChain 2)).analyze 90 {} [Sample.main, Sample.main] =
        .finished st' ∧
      st.Holds (.pointsTo (.var [] (some (Sample.cellVar Sample.main "c"))) Sample.theCell) ∧
      ∀ f, st.Holds f ↔ st'.Holds f := by
  have known : ∀ s ∈ Sample.reversedCode.allStmts, s.isUnknown = false := by decide
  have entries : [Sample.main] ⊆ [Sample.main, Sample.main] := by simp
  have entries' : [Sample.main, Sample.main] ⊆ [Sample.main] := by simp
  obtain ⟨-, facts⟩ := analysis_monotone (Sample.rules (.objectChain 2))
    (Sample.reversedRules (.objectChain 2)) [Sample.main] [Sample.main, Sample.main] rfl
    (fun k h => nomatch h) rfl (fun m s => (Sample.mem_stmts_reversedCode m s).mpr) entries
    (fun m s hs => known s (CodeBase.mem_allStmts hs))
  refine ⟨_, _, rfl, rfl, by decide, ?_⟩
  exact (facts 90 90 _ _ rfl rfl).2 (fun m s => (Sample.mem_stmts_reversedCode m s).mp) entries'

end PointsTo

end StaticAnalysis
