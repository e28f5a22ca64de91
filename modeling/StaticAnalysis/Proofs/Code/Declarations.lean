import StaticAnalysis.Code.Base

/-!
# Code bases and the declarations that make them

`CodeBase.Declared` are the code bases that declarations lead to. A declaration that ends in a fault
makes none.

* `bodies_register`, `stmts_varNamed`, `stmts_addStmt` and their neighbours — what a declaration
  does to the bodies.
* `Declared.accepted_of_getElem?` — **a statement in the body of a method was accepted, and it knows
  the method** and its place there; so it stands there once (`Declared.nodup_stmts`).
-/

namespace StaticAnalysis

/-- The way in which an operation is written down. -/
def Op.written : Op → Draft
  | .alloc target type => .alloc target type
  | .copy target source => .copy target source
  | .loadField target base field => .loadField target base field
  | .storeField base field source => .storeField base field source
  | .loadElement target base => .loadElement target base
  | .storeElement base source => .storeElement base source
  | .call c => .call c.kind (some c.target) c.receiver c.args c.result
  | .leave value => .leave value
  | .nop => .nop
  | .other what => .other what

namespace CodeBase

/-- The code bases that declarations lead to, in whatever order they are made. -/
inductive Declared : CodeBase → Prop where
  | empty : Declared {}
  | declareClass {code : CodeBase} (declared : Declared code) (name : String) (links : Links)
      (isInterface isAbstract : Bool) :
      Declared (code.declareClass name links isInterface isAbstract).2
  | setSuper {code : CodeBase} (declared : Declared code) (c : Class) (s : Option Class) :
      Declared (code.setSuper c s)
  | register {code next : CodeBase} {c : Class} (declared : Declared code)
      (accepted : code.register c = .ok next) :
      Declared next
  | declareField {code : CodeBase} (declared : Declared code) (owner : Class) (name : String)
      (type : Ty) (isStatic : Bool) :
      Declared (code.declareField owner name type isStatic).2
  | declareMethod {code : CodeBase} (declared : Declared code) (owner : Class) (name : String)
      (paramTypes : List Ty) (paramNames : Option (List String)) (returns : Ty)
      (isStatic isAbstract : Bool) :
      Declared (code.declareMethod owner name paramTypes paramNames returns isStatic isAbstract).2
  | varNamed {code : CodeBase} (declared : Declared code) (m : Method) (name : String) (type : Ty) :
      Declared (code.varNamed m name type).2
  | addStmt {code next : CodeBase} {m : Method} {draft : Draft} {refined : Bool}
      (declared : Declared code) (accepted : code.addStmt m draft refined = .ok next) :
      Declared next

/-! ### What declarations do to bodies -/

section Bodies

variable {code : CodeBase}

/-- Work that is accepted was accepted before its result was carried on. -/
theorem exists_of_map_ok {ε α β : Type} {f : α → β} {x : Except ε α} {b : β} (h : x.map f = .ok b) :
    ∃ a, x = .ok a ∧ f a = b := by
  cases x with
  | error e => cases h
  | ok a =>
    cases h
    exact ⟨a, rfl, rfl⟩

theorem body_updateBody (m n : Method) (f : Body → Body) :
    (code.updateBody m f).body n = if n = m then f (code.body n) else code.body n := by
  rw [body, updateBody, Table.getD, Table.get?_set]
  by_cases h : n = m
  · rw [if_pos h, if_pos h, h]
    rfl
  · rw [if_neg h, if_neg h]
    rfl

theorem bodies_register {next : CodeBase} {c : Class} (accepted : code.register c = .ok next) :
    next.bodies = code.bodies := by
  obtain ⟨hierarchy, -, rfl⟩ := exists_of_map_ok accepted
  rfl

/-- A new method has no statements, and the bodies of the others are as before. -/
theorem stmts_declareMethod_cases (owner : Class) (name : String) (types : List Ty)
    (names : Option (List String)) (returns : Ty) (isStatic isAbstract : Bool) (n : Method) :
    ((code.declareMethod owner name types names returns isStatic isAbstract).2.body n).stmts = [] ∨
      ((code.declareMethod owner name types names returns isStatic isAbstract).2.body n).stmts
        = (code.body n).stmts := by
  change ((code.bodies.set _ _).getD n {}).stmts = [] ∨ ((code.bodies.set _ _).getD n {}).stmts = _
  rw [Table.getD, Table.get?_set]
  split
  · exact Or.inl rfl
  · exact Or.inr rfl

theorem stmts_varNamed (m n : Method) (name : String) (type : Ty) :
    ((code.varNamed m name type).2.body n).stmts = (code.body n).stmts := by
  unfold varNamed
  split
  · rfl
  · rw [body_updateBody]
    split <;> rfl

/-- A statement that is accepted stands last in the body of its method. -/
theorem stmts_addStmt {next : CodeBase} {m : Method} {draft : Draft} {refined : Bool}
    (accepted : code.addStmt m draft refined = .ok next) : ∃ op, draft.check m = .ok op ∧ ∀ n,
      (next.body n).stmts =
        if n = m then (code.body n).stmts ++ [⟨⟨(code.body n).stmts.length, n⟩, op, refined⟩]
        else (code.body n).stmts := by
  obtain ⟨op, checked, rfl⟩ := exists_of_map_ok accepted
  refine ⟨op, checked, fun n => ?_⟩
  rw [CodeBase.append, body_updateBody]
  by_cases hn : n = m
  · rw [if_pos hn, if_pos hn, hn]
  · rw [if_neg hn, if_neg hn]

end Bodies

namespace Declared

variable {code : CodeBase}

/-- A statement was accepted, and it knows its place in the body. -/
theorem accepted_of_getElem? (declared : code.Declared) {m : Method} {i : Nat} {s : Stmt}
    (hs : (code.body m).stmts[i]? = some s) :
    s.site = ⟨i, m⟩ ∧ ∃ draft : Draft, draft.check m = .ok s.op := by
  induction declared with
  | empty => cases hs
  | declareClass _ name links isInterface isAbstract ih => exact ih hs
  | setSuper _ c above ih => exact ih hs
  | register _ accepted ih =>
    rw [body, bodies_register accepted] at hs
    exact ih hs
  | declareField _ owner name type isStatic ih => exact ih hs
  | declareMethod _ owner name paramTypes paramNames returns isStatic isAbstract ih =>
    rcases stmts_declareMethod_cases owner name paramTypes paramNames returns isStatic isAbstract m
      with none | same
    · rw [none] at hs
      cases hs
    · rw [same] at hs
      exact ih hs
  | varNamed _ n name type ih =>
    rw [stmts_varNamed] at hs
    exact ih hs
  | @addStmt code next n draft refined _ accepted ih =>
    obtain ⟨op, checked, stmts⟩ := stmts_addStmt accepted
    rw [stmts] at hs
    split at hs
    · next here =>
      rw [List.getElem?_append] at hs
      split at hs
      · exact ih hs
      · -- only the statement that was added stands behind the others
        obtain ⟨last, added⟩ := List.getElem?_eq_some_iff.mp hs
        have place : i = (code.body m).stmts.length := by
          rw [List.length_singleton] at last
          omega
        rw [List.getElem_singleton] at added
        rw [← added]
        exact ⟨congrArg (Site.mk · m) place.symm, draft, here ▸ checked⟩
    · exact ih hs

/-- A statement knows its place in the body. -/
theorem site_of_getElem? (declared : code.Declared) {m : Method} {i : Nat} {s : Stmt}
    (hs : (code.body m).stmts[i]? = some s) : s.site = ⟨i, m⟩ :=
  (declared.accepted_of_getElem? hs).1

/-- A statement in the body of a method knows that method. -/
theorem method_of_mem_stmts (declared : code.Declared) {m : Method} {s : Stmt}
    (hs : s ∈ (code.body m).stmts) : s.method = m := by
  obtain ⟨i, hi⟩ := List.mem_iff_getElem?.mp hs
  exact congrArg Site.method (declared.site_of_getElem? hi)

/-- A statement has one place in the body. -/
theorem position_eq (declared : code.Declared) {m : Method} {i j : Nat} {s : Stmt}
    (hi : (code.body m).stmts[i]? = some s) (hj : (code.body m).stmts[j]? = some s) : i = j :=
  congrArg Site.index ((declared.site_of_getElem? hi).symm.trans (declared.site_of_getElem? hj))

/-- No statement stands twice in a body. -/
theorem nodup_stmts (declared : code.Declared) (m : Method) : (code.body m).stmts.Nodup := by
  refine List.pairwise_iff_getElem.mpr ?_
  intro i j hi hj before same
  have here : (code.body m).stmts[i]? = some (code.body m).stmts[j] := by
    rw [List.getElem?_eq_getElem hi, same]
  have equal : i = j := declared.position_eq here (List.getElem?_eq_getElem hj)
  omega

/-- A call statement of the code stands in one method only, the one that it knows. -/
theorem mem_calls_iff (declared : code.Declared) {m n : Method} {s : Stmt}
    (hs : s ∈ (code.body n).calls) : s ∈ (code.body m).calls ↔ s.method = m := by
  constructor
  · intro mem
    exact declared.method_of_mem_stmts (List.mem_filter.mp mem).1
  · intro here
    have there := declared.method_of_mem_stmts (List.mem_filter.mp hs).1
    rw [← here, there]
    exact hs

end Declared

end CodeBase

end StaticAnalysis
