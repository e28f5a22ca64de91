import StaticAnalysis.Proofs.PointsTo.Interning

/-!
# What tasks put into the pool

The pool of pointers and objects grows with every task that mentions one for the first time. What
comes into it can be told from the task alone.

* `Task.Touches`, `Task.Creates` — the pointers and the objects that a task may mention.
* `Mentions A B st st'` — from `st` to `st'` only pointers of the kind `A` and objects of the kind
  `B` came into the pool; one lemma for each operation on states.

**Main statement** (`mentions_of_perform`): a task puts nothing into the pool but what it may
mention.
-/

namespace StaticAnalysis.PointsTo

/-- The pointers that a task may mention: variables under the contexts that it is about, static
fields, and fields and elements of the objects that it is applied to. -/
def Task.Touches (rules : Rules) : Task → Pointer → Prop
  | .exec s, .var context _ => context = s.1
  | .exec _, .static _ => True
  | .resume s _, .var context _ => context = s.1
  | .resume _ objs, .member o _ => o ∈ objs
  | .resume _ objs, .element o => o ∈ objs
  | .invoke s o, .var context _ => rules.selector.calleeContext s.1 s.2 (some o) = some context
  | .wire e, .var context _ => context = e.site.1 ∨ context = e.callee.1
  | _, _ => False

/-- The objects that a task may mention: those that a statement allocates. -/
def Task.Creates (rules : Rules) : Task → HeapObj → Prop
  | .exec s, o => o.context = rules.selector.heapContext s.1
  | _, _ => False

/-- From `st` to `st'` only pointers and objects of two kinds came into the pool. -/
structure Mentions (A : Pointer → Prop) (B : HeapObj → Prop) (st st' : State) : Prop where
  pointers : ∀ p ∈ st'.pool.pointers, p ∈ st.pool.pointers ∨ A p
  objects : ∀ o ∈ st'.pool.objects, o ∈ st.pool.objects ∨ B o

namespace Mentions

variable {A : Pointer → Prop} {B : HeapObj → Prop} {st st' st'' : State}

theorem of_pool (h : st'.pool = st.pool) : Mentions A B st st' := by
  refine ⟨?_, ?_⟩
  · intro p hp
    rw [h] at hp
    exact Or.inl hp
  · intro o ho
    rw [h] at ho
    exact Or.inl ho

theorem same (h : Mentions A B st st') (pool : st''.pool = st'.pool) : Mentions A B st st'' := by
  refine ⟨?_, ?_⟩
  · rw [pool]
    exact h.pointers
  · rw [pool]
    exact h.objects

theorem mention (h : Mentions A B st st') {p : Pointer} (hp : A p) :
    Mentions A B st (st'.mention p) := by
  have objects : (st'.mention p).pool.objects = st'.pool.objects := st'.pool.objects_mention p
  refine ⟨?_, ?_⟩
  · intro q hq
    have hq' : q ∈ (st'.pool.mention p).pointers := hq
    rw [Pool.pointers_mention] at hq'
    rcases mem_adjoin.mp hq' with old | rfl
    · exact h.pointers q old
    · exact Or.inr hp
  · rw [objects]
    exact h.objects

theorem mentionObj (h : Mentions A B st st') {o : HeapObj} (ho : B o) :
    Mentions A B st (st'.mentionObj o) := by
  refine ⟨h.pointers, ?_⟩
  intro q hq
  rcases mem_adjoin.mp hq with old | rfl
  · exact h.objects q old
  · exact Or.inr ho

theorem connect (h : Mentions A B st st') {p q : Pointer} (hp : A p) (hq : A q) :
    Mentions A B st (st'.connect p q) :=
  ((h.mention hp).mention hq).same (st'.pool_connect p q)

theorem foldl {α : Type} (pair : α → Pointer × Pointer) {xs : List α} (h : Mentions A B st st')
    (hxs : ∀ a ∈ xs, A (pair a).1 ∧ A (pair a).2) :
    Mentions A B st (xs.foldl (fun st a => st.connect (pair a).1 (pair a).2) st') := by
  induction xs generalizing st' with
  | nil => exact h
  | cons a xs ih =>
    obtain ⟨source, target⟩ := hxs a List.mem_cons_self
    exact ih (h.connect source target) fun b hb => hxs b (List.mem_cons_of_mem a hb)

end Mentions

section Pool

variable {rules : Rules} {st : State} {s : CtxStmt} {r : State × List Task}

theorem mentions_of_exec (h : rules.exec st s.1 s.2 = .ok r) :
    Mentions ((Task.exec s).Touches rules) ((Task.exec s).Creates rules) st r.1 := by
  have var : ∀ v, (Task.exec s).Touches rules (.var s.1 v) := fun v => rfl
  have none : Mentions ((Task.exec s).Touches rules) ((Task.exec s).Creates rules) st st :=
    .of_pool rfl
  have waits : ∀ v, Mentions ((Task.exec s).Touches rules) ((Task.exec s).Creates rules) st
      (hold st s v).1 := fun v => (none.mention (var v)).same rfl
  cases hop : s.2.op with
  | alloc target type =>
    simp only [Rules.exec, hop, Except.ok.injEq] at h
    subst h
    have created : (Task.exec s).Creates rules (rules.newObj s target type) := rfl
    exact ((none.mentionObj created).mention (var target)).same rfl
  | copy target source =>
    cases target with
    | none => simp [Rules.exec, hop, carriesObjects, orFault, Except.map] at h
    | some v =>
      simp only [Rules.exec, hop, carriesObjects_some, Except.map, Except.ok.injEq] at h
      subst h
      cases v.isReference with
      | false => exact none
      | true => exact none.connect (var source) (var (some v))
  | loadField target base field =>
    simp only [Rules.exec, hop] at h
    split at h
    · cases h
      exact none
    · split at h
      · cases h
        exact none.connect trivial (var target)
      · cases h
        exact waits base
  | storeField base field source =>
    simp only [Rules.exec, hop] at h
    split at h
    · cases h
      exact none
    · split at h
      · cases h
        exact none.connect (var source) trivial
      · cases h
        exact waits base
  | loadElement target base =>
    cases target with
    | none => simp [Rules.exec, hop, carriesObjects, orFault, Except.map] at h
    | some v =>
      simp only [Rules.exec, hop, carriesObjects_some, Except.map, Except.ok.injEq] at h
      subst h
      cases v.isReference with
      | false => exact none
      | true => exact waits base
  | storeElement base source =>
    cases source with
    | none => simp [Rules.exec, hop, carriesObjects, orFault, Except.map] at h
    | some v =>
      simp only [Rules.exec, hop, carriesObjects_some, Except.map, Except.ok.injEq] at h
      subst h
      cases v.isReference with
      | false => exact none
      | true => exact waits base
  | call call =>
    simp only [Rules.exec, hop, Rules.callDirectly] at h
    split at h
    · split at h
      · cases h
        exact .of_pool rfl
      · split at h
        · contradiction
        · cases h
          exact none
    · cases h
      exact .of_pool rfl
    · cases h
      exact waits call.receiver
  | leave value =>
    simp only [Rules.exec, hop, Except.ok.injEq] at h
    subst h
    exact none
  | nop =>
    simp only [Rules.exec, hop, Except.ok.injEq] at h
    subst h
    exact none
  | other => simp [Rules.exec, hop] at h

theorem mentions_of_resume {objs : List HeapObj} (h : rules.resume st s.1 s.2 objs = .ok r) :
    Mentions ((Task.resume s objs).Touches rules) ((Task.resume s objs).Creates rules) st r.1 := by
  have var : ∀ v, (Task.resume s objs).Touches rules (.var s.1 v) := fun v => rfl
  have start : ∀ v, Mentions ((Task.resume s objs).Touches rules)
      ((Task.resume s objs).Creates rules) st
      (st.mention (.var s.1 v)) := fun v => (Mentions.of_pool rfl).mention (var v)
  have given : ∀ o ∈ rules.objectOrder.arrange st.clock objs, o ∈ objs :=
    fun o ho => (rules.objectOrder.perm st.clock objs).mem_iff.mp ho
  cases hop : s.2.op with
  | loadField target base field =>
    simp only [Rules.resume, hop, Except.ok.injEq] at h
    subst h
    exact (start target).foldl (fun o => (.member o field, .var s.1 target))
      fun o ho => ⟨given o ho, var target⟩
  | storeField base field source =>
    simp only [Rules.resume, hop, Except.ok.injEq] at h
    subst h
    exact (start source).foldl (fun o => (.var s.1 source, .member o field))
      fun o ho => ⟨var source, given o ho⟩
  | loadElement target base =>
    simp only [Rules.resume, hop, Except.ok.injEq] at h
    subst h
    exact (start target).foldl (fun o => (.element o, .var s.1 target))
      fun o ho => ⟨given o ho, var target⟩
  | storeElement base source =>
    simp only [Rules.resume, hop, Except.ok.injEq] at h
    subst h
    exact (start source).foldl (fun o => (.var s.1 source, .element o))
      fun o ho => ⟨var source, given o ho⟩
  | call call =>
    simp only [Rules.resume, hop, Except.ok.injEq] at h
    subst h
    exact .of_pool rfl
  | _ => simp [Rules.resume, hop] at h

theorem mentions_of_callOn {call : Call} {o : HeapObj}
    (h : rules.callOn st s.1 s.2 call o = .ok r) :
    Mentions ((Task.invoke s o).Touches rules) ((Task.invoke s o).Creates rules) st r.1 := by
  rw [Rules.callOn] at h
  split at h
  · cases h
    exact .of_pool rfl
  · next callee target =>
    split at h
    · contradiction
    · next context chosen =>
      cases h
      show Mentions _ _ st (st.seed (context, callee) o)
      rw [State.seed]
      split
      · next v this =>
        have touched : (Task.invoke s o).Touches rules (.var context (some v)) := chosen
        have mentioned : Mentions ((Task.invoke s o).Touches rules)
            ((Task.invoke s o).Creates rules) st
            (st.mention (.var context (some v))) := (Mentions.of_pool rfl).mention touched
        exact mentioned.same rfl
      · exact .of_pool rfl

theorem mentions_of_wire (e : CtxEdge) :
    Mentions ((Task.wire e).Touches rules) ((Task.wire e).Creates rules) st (rules.wire st e) := by
  have site : ∀ v, (Task.wire e).Touches rules (.var e.site.1 v) := fun v => Or.inl rfl
  have callee : ∀ v, (Task.wire e).Touches rules (.var e.callee.1 v) := fun v => Or.inr rfl
  cases hcall : e.site.2.call? with
  | none =>
    rw [Rules.wire, hcall]
    exact .of_pool rfl
  | some call =>
    have arguments : Mentions ((Task.wire e).Touches rules) ((Task.wire e).Creates rules) st
        (((call.args.zip e.callee.2.params).filter fun p => p.2.isReference).foldl
          (fun st p => st.connect (.var e.site.1 p.1) (.var e.callee.1 (some p.2))) st) :=
      (Mentions.of_pool rfl).foldl
        (fun p : Operand × Var => (.var e.site.1 p.1, .var e.callee.1 (some p.2)))
        fun p _ => ⟨site p.1, callee (some p.2)⟩
    rw [Rules.wire, hcall]
    cases hresult : call.result with
    | none =>
      simp only [hresult]
      exact arguments
    | some result =>
      cases ref : result.isReference with
      | false =>
        simp only [hresult, ref, Bool.false_eq_true, if_false]
        exact arguments
      | true =>
        simp only [hresult, ref, if_true]
        exact (arguments.mention (site (some result))).foldl
          (fun v => (.var e.callee.1 (some v), .var e.site.1 (some result)))
          fun v _ => ⟨callee (some v), site (some result)⟩

/-- **A task puts nothing into the pool but what it may touch or create.** -/
theorem mentions_of_perform {t : Task} (h : rules.perform st t = .ok r) :
    Mentions (t.Touches rules) (t.Creates rules) st r.1 := by
  cases t with
  | root m =>
    cases h
    exact .of_pool rfl
  | enter m =>
    simp only [Rules.perform] at h
    split at h <;> cases h <;> exact .of_pool rfl
  | exec s => exact mentions_of_exec h
  | resume s objs => exact mentions_of_resume h
  | invoke s o =>
    simp only [Rules.perform] at h
    split at h
    · exact mentions_of_callOn h
    · contradiction
  | link e =>
    simp only [Rules.perform] at h
    split at h <;> cases h <;> exact .of_pool rfl
  | wire e =>
    cases h
    exact mentions_of_wire e
  | notify p next objs =>
    simp only [Rules.perform] at h
    split at h <;> cases h <;> exact .of_pool rfl

end Pool

end StaticAnalysis.PointsTo
