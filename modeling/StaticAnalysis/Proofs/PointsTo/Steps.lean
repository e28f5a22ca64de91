import StaticAnalysis.Proofs.CallGraph.Projection
import StaticAnalysis.Proofs.PointsTo.Views

/-!
# What a task does

`Performs st t st' next` lists what the machine can do with a task `t` in a state `st`: the state
`st'` that it leaves, the tasks `next` that it puts in front of the agenda, and what this has to do
with the inference rules. Every proof about steps of the machine starts from this list.

* `performs_of_perform` — **each successful task is in the list**.
* `perform_error` — a task fails only for want of a rule, an operand or a callee context.
* `advances_of_step` and `run_endsAt` — the same for steps of the machine, and how an invariant of
  steps is carried over to runs.
-/

namespace StaticAnalysis

/-- Whether a statement leaves an operand open whose type decides if objects can flow. -/
def Stmt.isOpen (s : Stmt) : Bool :=
  match s.op with
  | .copy none _ | .loadElement none _ | .storeElement _ none => true
  | _ => false

/-- Whether a statement is of a kind that the analyses do not know. -/
def Stmt.isUnknown (s : Stmt) : Bool := s.op.kind?.isNone

theorem Stmt.isUnknown_iff {s : Stmt} : s.isUnknown = true ↔ ∃ what, s.op = .other what := by
  unfold isUnknown
  cases s.op <;> simp [Op.kind?]

namespace PointsTo

/-- The state in which an object is on its way to the receiver variable of a callee. -/
def State.seed (st : State) (m : CtxMethod) (o : HeapObj) : State :=
  match m.2.this? with
  | some v => (st.mention (.var m.1 (some v))).send (.var m.1 (some v)) [o]
  | none => st

theorem State.waitingFor_seed (st : State) (m : CtxMethod) (o : HeapObj) (p : Pointer) :
    (st.seed m o).waitingFor p = st.waitingFor p := by
  rw [State.seed]
  split <;> rfl

theorem State.graph_seed (st : State) (m : CtxMethod) (o : HeapObj) :
    (st.seed m o).graph = st.graph := by
  rw [State.seed]
  split <;> rfl

/-- The state in which a method has become reachable. -/
def State.reach (st : State) (m : CtxMethod) : State :=
  ({ st with graph := { st.graph with reachable := st.graph.reachable ++ [m] } }).record
    (.reached m)

/-- A statement that begins to wait comes last among those that wait for its operand. -/
theorem waitingFor_hold (st : State) (s : CtxStmt) (v : Operand) (p : Pointer) :
    (hold st s v).1.waitingFor p
      = if p = .var s.1 v then st.waitingFor p ++ [s] else st.waitingFor p :=
  st.waiting.getD_push (.var s.1 v) p s

/-- It is applied at once to the objects that are there, if there are any. -/
theorem tasks_hold (st : State) (s : CtxStmt) (v : Operand) :
    (hold st s v).2 = if (st.objectsOf (.var s.1 v)).isEmpty then []
      else [.resume s (st.objectsOf (.var s.1 v))] :=
  rfl

/-- The object that an allocation creates. -/
def Rules.newObj (rules : Rules) (s : CtxStmt) (target : Operand) (type : Ty) : HeapObj :=
  ⟨rules.selector.heapContext s.1, ⟨s.2.site, target, type⟩⟩

/-- What the machine does with a task. -/
inductive Performs (rules : Rules) (st : State) : Task → State → List Task → Prop where
  | root (m : Method) :
      Performs rules st (.root m) { st with graph := st.graph.addEntry ([], m) } [.enter ([], m)]
  | known {m : CtxMethod} (h : m ∈ st.graph.reachable) : Performs rules st (.enter m) st []
  | enter {m : CtxMethod} (h : m ∉ st.graph.reachable) :
      Performs rules st (.enter m) (st.reach m)
        ((rules.code.body m.2).stmts.map fun s => .exec (m.1, s))
  | alloc {s : CtxStmt} {target : Operand} {type : Ty} (awaits : s.2.awaited? = none)
      (gives : ∀ f, rules.Gives s f
        ↔ f = .pointsTo (.var s.1 target) (rules.newObj s target type)) :
      Performs rules st (.exec s)
        (((st.mentionObj (rules.newObj s target type)).mention (.var s.1 target)).send
          (.var s.1 target) [rules.newObj s target type]) []
  /-- Copies, accesses to static fields, and statements that do nothing. -/
  | direct {s : CtxStmt} {st' : State} {l : List (Pointer × Pointer)}
      (awaits : s.2.awaited? = none) (connected : Connected st l st')
      (gives : ∀ f, rules.Gives s f ↔ ∃ p q, f = .flows p q ∧ (p, q) ∈ l) :
      Performs rules st (.exec s) st' []
  | hold {s : CtxStmt} {v : Operand} (awaits : s.2.awaited? = some v)
      (gives : ∀ f, ¬ rules.Gives s f) :
      Performs rules st (.exec s) (hold st s v).1 (hold st s v).2
  | callDirectly {s : CtxStmt} {e : CtxEdge} (awaits : s.2.awaited? = none)
      (gives : ∀ f, rules.Gives s f ↔ f = .called e) :
      Performs rules st (.exec s) st [.link e]
  /-- Accesses to members and elements of objects. -/
  | access {s : CtxStmt} {objs : List HeapObj} {st' : State} {l : List (Pointer × Pointer)}
      (connected : Connected st l st')
      (gives : ∀ f, (∃ o ∈ objs, rules.GivesOn s o f) ↔ ∃ p q, f = .flows p q ∧ (p, q) ∈ l) :
      Performs rules st (.resume s objs) st' []
  | spread {s : CtxStmt} {objs ordered : List HeapObj} (call : s.2.isCall = true)
      (perm : ordered.Perm objs) :
      Performs rules st (.resume s objs) st (ordered.map fun o => .invoke s o)
  | noTarget {s : CtxStmt} {o : HeapObj} (gives : ∀ f, ¬ rules.GivesOn s o f) :
      Performs rules st (.invoke s o) (st.record (.noTargetOn s.2 o)) []
  | callOn {s : CtxStmt} {o : HeapObj} {e : CtxEdge}
      (gives : ∀ f, rules.GivesOn s o f ↔ f = .called e ∨
        ∃ v, e.callee.2.this? = some v ∧ f = .pointsTo (.var e.callee.1 (some v)) o) :
      Performs rules st (.invoke s o) (st.seed e.callee o) [.link e]
  | linked {e : CtxEdge} (h : e ∈ st.graph.edges) : Performs rules st (.link e) st []
  | link {e : CtxEdge} (h : e ∉ st.graph.edges) :
      Performs rules st (.link e) { st with graph := (st.graph.addEdge e).2 }
        [.enter e.callee, .wire e]
  | wire {e : CtxEdge} {st' : State} {l : List (Pointer × Pointer)} (connected : Connected st l st')
      (gives : ∀ f, rules.Wires e f ↔ ∃ p q, f = .flows p q ∧ (p, q) ∈ l) :
      Performs rules st (.wire e) st' []
  | notified {p : Pointer} {next : Nat} {objs : List HeapObj}
      (h : (st.waitingFor p).length ≤ next) : Performs rules st (.notify p next objs) st []
  | notify {p : Pointer} {next : Nat} {objs : List HeapObj} {s : CtxStmt}
      (h : (st.waitingFor p)[next]? = some s) :
      Performs rules st (.notify p next objs) st [.resume s objs, .notify p (next + 1) objs]

/-! ### Statements of reachable methods -/

section Exec

variable {rules : Rules} {st : State} {s : CtxStmt}

/-- The facts that a statement gives, by its operation. -/
theorem gives_iff (f : Fact) :
    rules.Gives s f ↔
      match s.2.op with
      | .alloc target type => f = .pointsTo (.var s.1 target) (rules.newObj s target type)
      | .copy target source => ∃ v, target = some v ∧ v.isReference = true ∧
          f = .flows (.var s.1 source) (.var s.1 target)
      | .loadField target _ field => field.type.isReference = true ∧ field.isStatic = true ∧
          f = .flows (.static field) (.var s.1 target)
      | .storeField _ field source => field.type.isReference = true ∧ field.isStatic = true ∧
          f = .flows (.var s.1 source) (.static field)
      | .call call => call.kind = .static ∧ ∃ callee context,
          rules.code.resolveCallee .unknown call = some callee ∧
          rules.selector.calleeContext s.1 s.2 none = some context ∧
          f = .called ⟨call.kind, s, (context, callee)⟩
      | _ => False := by
  constructor
  · intro h
    cases h with
    | alloc h => rw [h]; rfl
    | copy h ref => rw [h]; exact ⟨_, rfl, ref, rfl⟩
    | loadStatic h ref static => rw [h]; exact ⟨ref, static, rfl⟩
    | storeStatic h ref static => rw [h]; exact ⟨ref, static, rfl⟩
    | call h static target chosen => rw [h]; exact ⟨static, _, _, target, chosen, rfl⟩
  · intro h
    split at h
    · next target type hop => subst h; exact .alloc hop
    · next target source hop =>
      obtain ⟨v, rfl, ref, rfl⟩ := h
      exact .copy hop ref
    · next target base field hop =>
      obtain ⟨ref, static, rfl⟩ := h
      exact .loadStatic hop ref static
    · next base field source hop =>
      obtain ⟨ref, static, rfl⟩ := h
      exact .storeStatic hop ref static
    · next call hop =>
      obtain ⟨static, callee, context, target, chosen, rfl⟩ := h
      exact .call hop static target chosen
    · exact h.elim

/-- A statement that gives nothing and waits for nothing; it may leave a note. -/
theorem Performs.quiet {st' : State} (awaits : s.2.awaited? = none)
    (gives : ∀ f, ¬ rules.Gives s f) (connected : Connected st [] st') :
    Performs rules st (.exec s) st' [] := by
  refine .direct awaits connected ?_
  intro f
  constructor
  · intro hf
    exact absurd hf (gives f)
  · rintro ⟨p, q, -, hl⟩
    exact absurd hl List.not_mem_nil

/-- A statement that leaves no trace. -/
theorem Performs.skip (awaits : s.2.awaited? = none) (gives : ∀ f, ¬ rules.Gives s f) :
    Performs rules st (.exec s) st [] :=
  .quiet awaits gives (.nil st)

/-- A statement that gives one flow edge. -/
theorem Performs.connect {p q : Pointer} (awaits : s.2.awaited? = none)
    (gives : ∀ f, rules.Gives s f ↔ f = .flows p q) :
    Performs rules st (.exec s) (st.connect p q) [] := by
  refine .direct (l := [(p, q)]) awaits (.connect p q (.nil _)) ?_
  intro f
  rw [gives f]
  constructor
  · intro hf
    exact ⟨p, q, hf, List.mem_cons_self⟩
  · rintro ⟨p', q', rfl, hl⟩
    rw [List.mem_singleton] at hl
    obtain ⟨rfl, rfl⟩ := Prod.mk.inj hl
    rfl

/-- Only statements that give nothing at once wait for objects. -/
theorem not_gives_of_awaited {v : Operand} (awaits : s.2.awaited? = some v) :
    ∀ f, ¬ rules.Gives s f := by
  intro f hf
  cases hf with
  | alloc h => simp [Stmt.awaited?, h] at awaits
  | copy h ref => simp [Stmt.awaited?, h] at awaits
  | loadStatic h ref static => simp [Stmt.awaited?, h, static] at awaits
  | storeStatic h ref static => simp [Stmt.awaited?, h, static] at awaits
  | call h static target chosen => simp [Stmt.awaited?, h, static, CallKind.needsReceiver] at awaits

theorem carriesObjects_some (v : Var) : carriesObjects (some v) = .ok v.isReference := rfl

/-- Statements that wait for objects do so when their method becomes reachable. -/
theorem exec_of_awaited {v : Operand} (awaits : s.2.awaited? = some v) :
    rules.exec st s.1 s.2 = .ok (hold st s v) := by
  cases hop : s.2.op with
  | loadField target base field =>
    simp only [Stmt.awaited?, hop, Option.ite_none_right_eq_some, Bool.and_eq_true,
      Bool.not_eq_true', Option.some.injEq] at awaits
    obtain ⟨⟨ref, static⟩, rfl⟩ := awaits
    simp [Rules.exec, hop, ref, static]
  | storeField base field source =>
    simp only [Stmt.awaited?, hop, Option.ite_none_right_eq_some, Bool.and_eq_true,
      Bool.not_eq_true', Option.some.injEq] at awaits
    obtain ⟨⟨ref, static⟩, rfl⟩ := awaits
    simp [Rules.exec, hop, ref, static]
  | loadElement target base =>
    cases target with
    | none => simp [Stmt.awaited?, hop] at awaits
    | some w =>
      simp only [Stmt.awaited?, hop, Option.any_some, Option.ite_none_right_eq_some,
        Option.some.injEq] at awaits
      obtain ⟨ref, rfl⟩ := awaits
      simp [Rules.exec, hop, carriesObjects_some, Except.map, ref]
  | storeElement base source =>
    cases source with
    | none => simp [Stmt.awaited?, hop] at awaits
    | some w =>
      simp only [Stmt.awaited?, hop, Option.any_some, Option.ite_none_right_eq_some,
        Option.some.injEq] at awaits
      obtain ⟨ref, rfl⟩ := awaits
      simp [Rules.exec, hop, carriesObjects_some, Except.map, ref]
  | call call =>
    simp only [Stmt.awaited?, hop, Option.ite_none_right_eq_some, Option.some.injEq] at awaits
    obtain ⟨needs, rfl⟩ := awaits
    cases kind : call.kind with
    | static => simp [kind, CallKind.needsReceiver] at needs
    | dynamic => simp [kind, CallKind.needsReceiver] at needs
    | special => simp [Rules.exec, hop, kind]
    | virtual => simp [Rules.exec, hop, kind]
    | interface => simp [Rules.exec, hop, kind]
  | alloc target type => simp [Stmt.awaited?, hop] at awaits
  | copy target source => simp [Stmt.awaited?, hop] at awaits
  | leave value => simp [Stmt.awaited?, hop] at awaits
  | nop => simp [Stmt.awaited?, hop] at awaits
  | other => simp [Stmt.awaited?, hop] at awaits

/-- Calls that do not wait for a receiver: static ones and those that are left alone. -/
theorem performs_of_call {r : State × List Task} {call : Call} (awaits : s.2.awaited? = none)
    (hop : s.2.op = .call call) (h : rules.exec st s.1 s.2 = .ok r) :
    Performs rules st (.exec s) r.1 r.2 := by
  have needs : call.kind.needsReceiver = false := by simpa [Stmt.awaited?, hop] using awaits
  cases kind : call.kind with
  | static =>
    simp only [Rules.exec, hop, kind, Rules.callDirectly] at h
    cases target : rules.code.resolveCallee .unknown call with
    | none =>
      simp only [target, Except.ok.injEq] at h
      subst h
      refine .quiet awaits ?_ (.record _ (.nil _))
      intro f
      rw [gives_iff, hop]
      simp [target]
    | some callee =>
      simp only [target] at h
      cases chosen : rules.selector.calleeContext s.1 s.2 none with
      | none => simp [chosen] at h
      | some context =>
        simp only [chosen, Except.ok.injEq] at h
        subst h
        refine .callDirectly awaits ?_
        intro f
        rw [gives_iff, hop]
        simp [kind, target, chosen]
  | dynamic =>
    simp only [Rules.exec, hop, kind, Except.ok.injEq] at h
    subst h
    refine .quiet awaits ?_ (.record _ (.nil _))
    intro f
    rw [gives_iff, hop]
    simp [kind]
  | special => simp [kind, CallKind.needsReceiver] at needs
  | virtual => simp [kind, CallKind.needsReceiver] at needs
  | interface => simp [kind, CallKind.needsReceiver] at needs

theorem performs_of_exec {r : State × List Task} (h : rules.exec st s.1 s.2 = .ok r) :
    Performs rules st (.exec s) r.1 r.2 := by
  cases awaits : s.2.awaited? with
  | some v =>
    rw [exec_of_awaited awaits, Except.ok.injEq] at h
    subst h
    exact .hold awaits (not_gives_of_awaited awaits)
  | none =>
    cases hop : s.2.op with
    | alloc target type =>
      simp only [Rules.exec, hop, Except.ok.injEq] at h
      subst h
      refine .alloc awaits ?_
      intro f
      rw [gives_iff, hop]
    | copy target source =>
      cases target with
      | none => simp [Rules.exec, hop, carriesObjects, orFault, Except.map] at h
      | some v =>
        simp only [Rules.exec, hop, carriesObjects_some, Except.map, Except.ok.injEq] at h
        subst h
        cases ref : v.isReference with
        | false =>
          refine .skip awaits ?_
          intro f
          rw [gives_iff, hop]
          simp [ref]
        | true =>
          refine .connect awaits ?_
          intro f
          rw [gives_iff, hop]
          simp [ref]
    | loadField target base field =>
      cases ref : field.type.isReference with
      | false =>
        simp only [Rules.exec, hop, ref, Bool.not_false, if_true, Except.ok.injEq] at h
        subst h
        refine .skip awaits ?_
        intro f
        rw [gives_iff, hop]
        simp [ref]
      | true =>
        have static : field.isStatic = true := by
          simpa [Stmt.awaited?, hop, ref] using awaits
        simp only [Rules.exec, hop, ref, static, Bool.not_true, Bool.false_eq_true, if_false,
          if_true, Except.ok.injEq] at h
        subst h
        refine .connect awaits ?_
        intro f
        rw [gives_iff, hop]
        simp [ref, static]
    | storeField base field source =>
      cases ref : field.type.isReference with
      | false =>
        simp only [Rules.exec, hop, ref, Bool.not_false, if_true, Except.ok.injEq] at h
        subst h
        refine .skip awaits ?_
        intro f
        rw [gives_iff, hop]
        simp [ref]
      | true =>
        have static : field.isStatic = true := by
          simpa [Stmt.awaited?, hop, ref] using awaits
        simp only [Rules.exec, hop, ref, static, Bool.not_true, Bool.false_eq_true, if_false,
          if_true, Except.ok.injEq] at h
        subst h
        refine .connect awaits ?_
        intro f
        rw [gives_iff, hop]
        simp [ref, static]
    | loadElement target base =>
      cases target with
      | none => simp [Rules.exec, hop, carriesObjects, orFault, Except.map] at h
      | some w =>
        have ref : w.isReference = false := by simpa [Stmt.awaited?, hop] using awaits
        simp only [Rules.exec, hop, carriesObjects_some, Except.map, ref, Bool.false_eq_true,
          if_false, Except.ok.injEq] at h
        subst h
        exact .skip awaits fun f => by simp [gives_iff, hop]
    | storeElement base source =>
      cases source with
      | none => simp [Rules.exec, hop, carriesObjects, orFault, Except.map] at h
      | some w =>
        have ref : w.isReference = false := by simpa [Stmt.awaited?, hop] using awaits
        simp only [Rules.exec, hop, carriesObjects_some, Except.map, ref, Bool.false_eq_true,
          if_false, Except.ok.injEq] at h
        subst h
        exact .skip awaits fun f => by simp [gives_iff, hop]
    | call call => exact performs_of_call awaits hop h
    | leave value =>
      simp only [Rules.exec, hop, Except.ok.injEq] at h
      subst h
      exact .skip awaits fun f => by simp [gives_iff, hop]
    | nop =>
      simp only [Rules.exec, hop, Except.ok.injEq] at h
      subst h
      exact .skip awaits fun f => by simp [gives_iff, hop]
    | other => simp [Rules.exec, hop] at h

end Exec

/-! ### Waiting statements -/

section Resume

variable {rules : Rules} {st : State} {s : CtxStmt}

/-- The facts that a waiting statement gives on an object, by its operation. -/
theorem givesOn_iff (o : HeapObj) (f : Fact) :
    rules.GivesOn s o f ↔
      match s.2.op with
      | .loadField target _ field => f = .flows (.member o field) (.var s.1 target)
      | .storeField _ field source => f = .flows (.var s.1 source) (.member o field)
      | .loadElement target _ => f = .flows (.element o) (.var s.1 target)
      | .storeElement _ source => f = .flows (.var s.1 source) (.element o)
      | .call call => ∃ callee context,
          rules.code.resolveCallee o.alloc.type call = some callee ∧
          rules.selector.calleeContext s.1 s.2 (some o) = some context ∧
          (f = .called ⟨call.kind, s, (context, callee)⟩ ∨
            ∃ v, callee.this? = some v ∧ f = .pointsTo (.var context (some v)) o)
      | _ => False := by
  constructor
  · intro h
    cases h with
    | load h => rw [h]
    | store h => rw [h]
    | loadElement h => rw [h]
    | storeElement h => rw [h]
    | call h target chosen => rw [h]; exact ⟨_, _, target, chosen, Or.inl rfl⟩
    | receiver h target chosen this =>
      rw [h]
      exact ⟨_, _, target, chosen, Or.inr ⟨_, this, rfl⟩⟩
  · intro h
    split at h
    · next target base field hop => subst h; exact .load hop
    · next base field source hop => subst h; exact .store hop
    · next target base hop => subst h; exact .loadElement hop
    · next base source hop => subst h; exact .storeElement hop
    · next call hop =>
      obtain ⟨callee, context, target, chosen, rfl | ⟨v, this, rfl⟩⟩ := h
      · exact .call hop target chosen
      · exact .receiver hop target chosen this
    · exact h.elim

/-- A statement that gives one flow edge on each object. -/
theorem Performs.accessAll {objs ordered : List HeapObj} {p : Pointer}
    (pair : HeapObj → Pointer × Pointer) (perm : ordered.Perm objs)
    (gives : ∀ o f, rules.GivesOn s o f ↔ f = .flows (pair o).1 (pair o).2) :
    Performs rules st (.resume s objs)
      (ordered.foldl (fun st o => st.connect (pair o).1 (pair o).2) (st.mention p)) [] := by
  refine .access (.mention p (Connected.foldl pair ordered (st.mention p))) ?_
  intro f
  constructor
  · rintro ⟨o, ho, hf⟩
    exact ⟨_, _, (gives o f).mp hf, List.mem_map.mpr ⟨o, perm.mem_iff.mpr ho, rfl⟩⟩
  · rintro ⟨q, r, rfl, hl⟩
    obtain ⟨o, ho, heq⟩ := List.mem_map.mp hl
    refine ⟨o, perm.mem_iff.mp ho, (gives o _).mpr ?_⟩
    rw [heq]

theorem performs_of_resume {objs : List HeapObj} {r : State × List Task}
    (h : rules.resume st s.1 s.2 objs = .ok r) : Performs rules st (.resume s objs) r.1 r.2 := by
  have perm := rules.objectOrder.perm st.clock objs
  cases hop : s.2.op with
  | loadField target base field =>
    simp only [Rules.resume, hop, Except.ok.injEq] at h
    subst h
    exact .accessAll (fun o => (.member o field, .var s.1 target)) perm
      fun o f => by rw [givesOn_iff, hop]
  | storeField base field source =>
    simp only [Rules.resume, hop, Except.ok.injEq] at h
    subst h
    exact .accessAll (fun o => (.var s.1 source, .member o field)) perm
      fun o f => by rw [givesOn_iff, hop]
  | loadElement target base =>
    simp only [Rules.resume, hop, Except.ok.injEq] at h
    subst h
    exact .accessAll (fun o => (.element o, .var s.1 target)) perm
      fun o f => by rw [givesOn_iff, hop]
  | storeElement base source =>
    simp only [Rules.resume, hop, Except.ok.injEq] at h
    subst h
    exact .accessAll (fun o => (.var s.1 source, .element o)) perm
      fun o f => by rw [givesOn_iff, hop]
  | call call =>
    simp only [Rules.resume, hop, Except.ok.injEq] at h
    subst h
    exact .spread (by simp [Stmt.isCall, Stmt.call?, hop]) perm
  | alloc target type => simp [Rules.resume, hop] at h
  | copy target source => simp [Rules.resume, hop] at h
  | leave value => simp [Rules.resume, hop] at h
  | nop => simp [Rules.resume, hop] at h
  | other what => simp [Rules.resume, hop] at h

theorem performs_of_callOn {o : HeapObj} {call : Call} {r : State × List Task}
    (hop : s.2.op = .call call) (h : rules.callOn st s.1 s.2 call o = .ok r) :
    Performs rules st (.invoke s o) r.1 r.2 := by
  cases target : rules.code.resolveCallee o.alloc.type call with
  | none =>
    simp only [Rules.callOn, target, Except.ok.injEq] at h
    subst h
    refine .noTarget ?_
    intro f
    rw [givesOn_iff, hop]
    simp [target]
  | some callee =>
    simp only [Rules.callOn, target] at h
    cases chosen : rules.selector.calleeContext s.1 s.2 (some o) with
    | none => simp [chosen] at h
    | some context =>
      simp only [chosen, Except.ok.injEq] at h
      subst h
      refine .callOn (e := ⟨call.kind, s, (context, callee)⟩) ?_
      intro f
      rw [givesOn_iff, hop]
      simp [target, chosen]

end Resume

/-! ### Call edges -/

/-- The pairs of arguments and parameters that a call edge connects. -/
def argumentPairs (e : CtxEdge) (call : Call) : List (Pointer × Pointer) :=
  ((call.args.zip e.callee.2.params).filter fun p => p.2.isReference).map
    fun p => (.var e.site.1 p.1, .var e.callee.1 (some p.2))

/-- The pairs of returned variables and the result that a call edge connects. -/
def Rules.resultPairs (rules : Rules) (e : CtxEdge) (call : Call) : List (Pointer × Pointer) :=
  match call.result with
  | none => []
  | some r =>
    if r.isReference then
      (rules.code.body e.callee.2).returnVars.map
        fun v => (.var e.callee.1 (some v), .var e.site.1 (some r))
    else []

theorem wires_iff {rules : Rules} {e : CtxEdge} {call : Call} (hop : e.site.2.op = .call call)
    (f : Fact) :
    rules.Wires e f ↔
      ∃ p q, f = .flows p q ∧ (p, q) ∈ argumentPairs e call ++ rules.resultPairs e call := by
  constructor
  · intro h
    cases h with
    | @argument call' a p hop' pair ref =>
      obtain rfl : call = call' := by simpa [hop] using hop'
      refine ⟨_, _, rfl, List.mem_append_left _ ?_⟩
      exact List.mem_map.mpr ⟨(a, p), List.mem_filter.mpr ⟨pair, ref⟩, rfl⟩
    | @result call' r v hop' result ref returned =>
      obtain rfl : call = call' := by simpa [hop] using hop'
      refine ⟨_, _, rfl, List.mem_append_right _ ?_⟩
      rw [Rules.resultPairs, result]
      show _ ∈ if r.isReference = true then _ else _
      rw [if_pos ref]
      exact List.mem_map.mpr ⟨v, returned, rfl⟩
  · rintro ⟨p, q, rfl, hl⟩
    rcases List.mem_append.mp hl with harg | hres
    · obtain ⟨⟨a, v⟩, hmem, heq⟩ := List.mem_map.mp harg
      obtain ⟨pair, ref⟩ := List.mem_filter.mp hmem
      obtain ⟨rfl, rfl⟩ := Prod.mk.inj heq
      exact .argument hop pair ref
    · rw [Rules.resultPairs] at hres
      cases result : call.result with
      | none => simp [result] at hres
      | some r =>
        simp only [result] at hres
        split at hres
        · next ref =>
          obtain ⟨v, returned, heq⟩ := List.mem_map.mp hres
          obtain ⟨rfl, rfl⟩ := Prod.mk.inj heq
          exact .result hop result ref returned
        · exact absurd hres List.not_mem_nil

/-- Wiring a call edge connects exactly the pairs that the inference rules ask for. -/
theorem wire_connected (rules : Rules) (st : State) (e : CtxEdge) :
    ∃ l, Connected st l (rules.wire st e) ∧
      ∀ f, rules.Wires e f ↔ ∃ p q, f = .flows p q ∧ (p, q) ∈ l := by
  cases hcall : e.site.2.call? with
  | none =>
    refine ⟨[], ?_, ?_⟩
    · rw [Rules.wire, hcall]
      exact .nil st
    · intro f
      constructor
      · intro hf
        cases hf with
        | argument hop pair ref => simp [Stmt.call?, hop] at hcall
        | result hop result ref returned => simp [Stmt.call?, hop] at hcall
      · rintro ⟨p, q, -, hl⟩
        exact absurd hl List.not_mem_nil
  | some call =>
    have hop : e.site.2.op = .call call := by
      rw [Stmt.call?] at hcall
      split at hcall
      · next c hop => rw [hop, Option.some.inj hcall]
      · contradiction
    refine ⟨_, ?_, wires_iff hop⟩
    have arguments := Connected.foldl
      (fun p : Operand × Var => (Pointer.var e.site.1 p.1, Pointer.var e.callee.1 (some p.2)))
      ((call.args.zip e.callee.2.params).filter fun p => p.2.isReference) st
    rw [Rules.wire, hcall, Rules.resultPairs]
    cases result : call.result with
    | none =>
      simp only [result, List.append_nil]
      exact arguments
    | some r =>
      cases ref : r.isReference with
      | false =>
        simp only [result, ref, Bool.false_eq_true, if_false, List.append_nil]
        exact arguments
      | true =>
        simp only [result, ref, if_true]
        exact arguments.append (.mention (.var e.site.1 (some r)) (Connected.foldl
          (fun v : Var => (Pointer.var e.callee.1 (some v), Pointer.var e.site.1 (some r))) _ _))

theorem performs_of_perform {rules : Rules} {st : State} {t : Task} {r : State × List Task}
    (h : rules.perform st t = .ok r) : Performs rules st t r.1 r.2 := by
  cases t with
  | root m =>
    cases h
    exact .root m
  | enter m =>
    by_cases hm : m ∈ st.graph.reachable
    · have hadd : st.graph.addReachable m = (false, st.graph) := if_pos hm
      simp only [Rules.perform, hadd, Except.ok.injEq] at h
      subst h
      exact .known hm
    · have hadd : st.graph.addReachable m
          = (true, { st.graph with reachable := st.graph.reachable ++ [m] }) := if_neg hm
      simp only [Rules.perform, hadd, Except.ok.injEq] at h
      subst h
      exact .enter hm
  | exec s => exact performs_of_exec h
  | resume s objs => exact performs_of_resume h
  | invoke s o =>
    cases hop : s.2.op with
    | call call =>
      have hcall : s.2.call? = some call := by simp [Stmt.call?, hop]
      simp only [Rules.perform, hcall] at h
      exact performs_of_callOn hop h
    | _ => simp [Rules.perform, Stmt.call?, hop] at h
  | link e =>
    by_cases he : e ∈ st.graph.edges
    · have hadd : st.graph.addEdge e = (false, st.graph) := if_pos he
      simp only [Rules.perform, hadd, Except.ok.injEq] at h
      subst h
      exact .linked he
    · have hadd : st.graph.addEdge e = (true, (st.graph.addEdge e).2) := by
        rw [CallGraph.addEdge, if_neg he]
      rw [Rules.perform, hadd, Except.ok.injEq] at h
      subst h
      exact .link he
  | wire e =>
    cases h
    obtain ⟨l, connected, gives⟩ := wire_connected rules st e
    exact .wire connected gives
  | notify p next objs =>
    cases hs : (st.waitingFor p)[next]? with
    | none =>
      simp only [Rules.perform, hs, Except.ok.injEq] at h
      subst h
      exact .notified (List.getElem?_eq_none_iff.mp hs)
    | some s =>
      simp only [Rules.perform, hs, Except.ok.injEq] at h
      subst h
      exact .notify hs

/-! ### Faults -/

/-- Only a selector that leaves them open has no context for a callee. -/
theorem calleeContext_eq_none {sel : Selector} {c : Context} {s : Stmt} {receiver : Option HeapObj}
    (h : sel.calleeContext c s receiver = none) : ∃ k, sel = .undecided k := by
  cases sel with
  | undecided k => exact ⟨k, rfl⟩
  | insensitive => exact nomatch h
  | callString k => exact nomatch h
  | objectChain k => cases receiver <;> exact nomatch h
  | typeChain k => cases receiver <;> exact nomatch h

section Faults

variable {rules : Rules} {st : State} {f : Fault}

theorem exec_error {s : CtxStmt} (h : rules.exec st s.1 s.2 = .error f) :
    (s.2.isUnknown = true ∧ f = s.2.refusal) ∨ (s.2.isOpen = true ∧ f = .operandMissing) ∨
      (f = .notProvided ∧ ∃ k, rules.selector = .undecided k) := by
  cases awaits : s.2.awaited? with
  | some v =>
    rw [exec_of_awaited awaits] at h
    contradiction
  | none =>
    cases hop : s.2.op with
    | other what =>
      simp only [Rules.exec, hop, Except.error.injEq] at h
      exact Or.inl ⟨Stmt.isUnknown_iff.mpr ⟨what, hop⟩, h.symm⟩
    | copy target source =>
      cases target with
      | none =>
        simp only [Rules.exec, hop, carriesObjects, orFault, Except.map, Except.error.injEq] at h
        exact Or.inr (Or.inl ⟨by simp [Stmt.isOpen, hop], h.symm⟩)
      | some v => simp [Rules.exec, hop, carriesObjects_some, Except.map] at h
    | loadElement target base =>
      cases target with
      | none =>
        simp only [Rules.exec, hop, carriesObjects, orFault, Except.map, Except.error.injEq] at h
        exact Or.inr (Or.inl ⟨by simp [Stmt.isOpen, hop], h.symm⟩)
      | some v => simp [Rules.exec, hop, carriesObjects_some, Except.map] at h
    | storeElement base source =>
      cases source with
      | none =>
        simp only [Rules.exec, hop, carriesObjects, orFault, Except.map, Except.error.injEq] at h
        exact Or.inr (Or.inl ⟨by simp [Stmt.isOpen, hop], h.symm⟩)
      | some v => simp [Rules.exec, hop, carriesObjects_some, Except.map] at h
    | call call =>
      simp only [Rules.exec, hop, Rules.callDirectly] at h
      split at h
      · split at h
        · contradiction
        · split at h
          · next chosen =>
            cases h
            exact Or.inr (Or.inr ⟨rfl, calleeContext_eq_none chosen⟩)
          · contradiction
      · contradiction
      · contradiction
    | loadField target base field =>
      simp only [Rules.exec, hop] at h
      split at h
      · contradiction
      · split at h <;> contradiction
    | storeField base field source =>
      simp only [Rules.exec, hop] at h
      split at h
      · contradiction
      · split at h <;> contradiction
    | alloc target type => simp [Rules.exec, hop] at h
    | leave value => simp [Rules.exec, hop] at h
    | nop => simp [Rules.exec, hop] at h

/-- **Why a task can fail**: the selector decides nothing, a statement that is executed has no rule
or leaves an operand open, or a statement was resumed or invoked that does not wait or call. -/
theorem perform_error {t : Task} (h : rules.perform st t = .error f) :
    (f = .notProvided ∧ ∃ k, rules.selector = .undecided k) ∨
      (∃ s, t = .exec s ∧ ((s.2.isUnknown = true ∧ f = s.2.refusal) ∨
        (s.2.isOpen = true ∧ f = .operandMissing))) ∨
      (∃ s objs, t = .resume s objs ∧ s.2.awaited? = none) ∨
      (∃ s o, t = .invoke s o ∧ s.2.isCall = false) := by
  cases t with
  | root m => contradiction
  | enter m =>
    simp only [Rules.perform] at h
    split at h <;> contradiction
  | exec s =>
    rcases exec_error h with hother | hopen | hundecided
    · exact Or.inr (Or.inl ⟨s, rfl, Or.inl hother⟩)
    · exact Or.inr (Or.inl ⟨s, rfl, Or.inr hopen⟩)
    · exact Or.inl hundecided
  | resume s objs =>
    refine Or.inr (Or.inr (Or.inl ⟨s, objs, rfl, ?_⟩))
    cases hop : s.2.op with
    | loadField target base field => simp [Rules.perform, Rules.resume, hop] at h
    | storeField base field source => simp [Rules.perform, Rules.resume, hop] at h
    | loadElement target base => simp [Rules.perform, Rules.resume, hop] at h
    | storeElement base source => simp [Rules.perform, Rules.resume, hop] at h
    | call call => simp [Rules.perform, Rules.resume, hop] at h
    | _ => simp [Stmt.awaited?, hop]
  | invoke s o =>
    simp only [Rules.perform] at h
    split at h
    · rw [Rules.callOn] at h
      split at h
      · contradiction
      · split at h
        · next chosen =>
          cases h
          exact Or.inl ⟨rfl, calleeContext_eq_none chosen⟩
        · contradiction
    · next hcall => exact Or.inr (Or.inr (Or.inr ⟨s, o, rfl, by simp [Stmt.isCall, hcall]⟩))
  | link e =>
    simp only [Rules.perform] at h
    split at h <;> contradiction
  | wire e => contradiction
  | notify p next objs =>
    simp only [Rules.perform] at h
    split at h <;> contradiction

end Faults

/-! ### Steps and runs -/

/-- One step of the machine: a task is done, or else the first entry of the worklist arrives. -/
inductive Advances (rules : Rules) : Config → Config → Prop where
  | task {st st' : State} {t : Task} {rest next : List Task} (h : Performs rules st t st' next) :
      Advances rules ⟨st, t :: rest⟩ (Rules.tick ⟨st', next ++ rest⟩)
  | arrival {st : State} {p : Pointer} {objs : List HeapObj}
      {rest : Queue (Pointer × List HeapObj)} {c : Config}
      (pop : st.work.toList = (p, objs) :: rest.toList) (h : Arrives st p objs rest c) :
      Advances rules ⟨st, []⟩ (Rules.tick c)
  | idle {st : State} (h : st.work.toList = []) :
      Advances rules ⟨st, []⟩ (Rules.tick ⟨st, []⟩)

/-- A step that succeeds with a task on the agenda has done this task. -/
theorem perform_of_step {rules : Rules} {st : State} {t : Task} {rest : List Task} {c' : Config}
    (h : rules.step ⟨st, t :: rest⟩ = .ok c') :
    ∃ r, rules.perform st t = .ok r ∧ c' = Rules.tick ⟨r.1, r.2 ++ rest⟩ := by
  simp only [Rules.step] at h
  cases hperform : rules.perform st t with
  | error f => simp [hperform, Except.map] at h
  | ok r =>
    simp only [hperform, Except.map, Except.ok.injEq] at h
    exact ⟨r, rfl, h.symm⟩

/-- A step fails only with a task on the agenda, and as this task does. -/
theorem perform_of_fault {rules : Rules} {c : Config} {f : Fault} (h : rules.step c = .error f) :
    ∃ t rest, c.agenda = t :: rest ∧ rules.perform c.state t = .error f := by
  obtain ⟨st, agenda⟩ := c
  cases agenda with
  | nil => contradiction
  | cons t rest =>
    refine ⟨t, rest, rfl, ?_⟩
    simp only [Rules.step] at h
    cases hperform : rules.perform st t with
    | ok r => simp [hperform, Except.map] at h
    | error g =>
      simp only [hperform, Except.map, Except.error.injEq] at h
      rw [h]

theorem advances_of_step {rules : Rules} {c c' : Config} (h : rules.step c = .ok c') :
    Advances rules c c' := by
  obtain ⟨st, agenda⟩ := c
  cases agenda with
  | nil =>
    simp only [Rules.step, Except.ok.injEq] at h
    subst h
    cases hpop : st.work.pop? with
    | none =>
      have empty := Queue.pop?_eq_none_iff.mp hpop
      rw [turn_of_empty empty]
      exact .idle empty
    | some entry =>
      obtain ⟨⟨p, objs⟩, rest⟩ := entry
      exact .arrival (Queue.toList_of_pop? hpop) (turn_of_pop hpop)
  | cons t rest =>
    obtain ⟨r, hperform, rfl⟩ := perform_of_step h
    exact .task (performs_of_perform hperform)

/-- The state in which a run ended. -/
def Outcome.state : Outcome → State
  | .finished st => st
  | .failed st _ => st
  | .unfinished c => c.state

/-- The state after `i` steps of an analysis, or where it has ended before. -/
def Rules.stateAfter (rules : Rules) (st : State) (entries : List Method) (i : Nat) : State :=
  (rules.run Rules.done i ⟨st, entries.map .root⟩).state

theorem Outcome.eq_finished {o : Outcome} (h : ∃ st, o = .finished st) : o = .finished o.state := by
  obtain ⟨st, rfl⟩ := h
  rfl

/-- A run ended in a configuration: at rest, before a task that cannot be done, or for want of
steps. -/
inductive EndsAt (rules : Rules) (atRest : Config → Bool) (c : Config) : Outcome → Prop where
  | finished (rest : atRest c = true) : EndsAt rules atRest c (.finished c.state)
  | failed {f : Fault} (h : rules.step c = .error f) : EndsAt rules atRest c (.failed c.state f)
  | unfinished : EndsAt rules atRest c (.unfinished c)

theorem EndsAt.state {rules : Rules} {atRest : Config → Bool} {c : Config} {o : Outcome}
    (h : EndsAt rules atRest c o) : o.state = c.state := by
  cases h <;> rfl

/-- **Invariants of runs**: what holds at the start and is kept by every step holds where a run
ends, however it ends. -/
theorem run_endsAt {rules : Rules} {atRest : Config → Bool} {P : Config → Prop}
    (kept : ∀ {c c' : Config}, P c → rules.step c = .ok c' → P c') :
    ∀ (n : Nat) {c : Config}, P c → ∃ c', P c' ∧ EndsAt rules atRest c' (rules.run atRest n c) := by
  intro n
  induction n with
  | zero =>
    intro c hc
    refine ⟨c, hc, ?_⟩
    rw [Rules.run]
    split
    · next rest => exact .finished rest
    · exact .unfinished
  | succ n ih =>
    intro c hc
    rw [Rules.run]
    split
    · next rest => exact ⟨c, hc, .finished rest⟩
    · cases hstep : rules.step c with
      | error f => exact ⟨c, hc, .failed hstep⟩
      | ok c' => exact ih (kept hc hstep)

/-- An analysis finishes where its run does, up to the last note in its history. -/
theorem run_of_analyze {rules : Rules} {n : Nat} {st₀ st : State} {entries : List Method}
    (h : rules.analyze n st₀ entries = .finished st) :
    ∃ st', rules.run Rules.done n ⟨st₀, entries.map .root⟩ = .finished st' ∧
      ∃ e, st = st'.record e := by
  rw [Rules.analyze] at h
  split at h
  · next st' hrun =>
    cases h
    exact ⟨st', hrun, _, rfl⟩
  · next hother => exact absurd h (hother st)

/-- A finished analysis: it ended in a configuration with nothing left to do, up to the last note
in its history. -/
theorem analyze_endsAt {rules : Rules} {P : Config → Prop}
    (kept : ∀ {c c' : Config}, P c → rules.step c = .ok c' → P c') {n : Nat} {st₀ st : State}
    {entries : List Method} (start : P ⟨st₀, entries.map .root⟩)
    (h : rules.analyze n st₀ entries = .finished st) :
    ∃ st', P ⟨st', []⟩ ∧ st'.work.toList = [] ∧ ∃ e, st = st'.record e := by
  obtain ⟨st', hrun, note⟩ := run_of_analyze h
  obtain ⟨⟨st'', agenda⟩, hP, ends⟩ := run_endsAt kept n start
  rw [hrun] at ends
  cases ends with
  | finished rest =>
    simp only [Rules.done, Bool.and_eq_true, List.isEmpty_iff, Queue.isEmpty_iff] at rest
    obtain ⟨rfl, hwork⟩ := rest
    exact ⟨st'', hP, hwork, note⟩

/-- The same for what is kept by all that a step can do. -/
theorem analyze_finished {rules : Rules} {P : Config → Prop}
    (kept : ∀ {c c' : Config}, P c → Advances rules c c' → P c') {n : Nat} {st₀ st : State}
    {entries : List Method} (start : P ⟨st₀, entries.map .root⟩)
    (h : rules.analyze n st₀ entries = .finished st) :
    ∃ st', P ⟨st', []⟩ ∧ st'.work.toList = [] ∧ ∃ e, st = st'.record e :=
  analyze_endsAt (fun hc hstep => kept hc (advances_of_step hstep)) start h

/-- A failed analysis: it ended in a configuration from which no step can be made. -/
theorem analyze_failed {rules : Rules} {P : Config → Prop}
    (kept : ∀ {c c' : Config}, P c → rules.step c = .ok c' → P c') {n : Nat} {st₀ st : State}
    {entries : List Method} {f : Fault} (start : P ⟨st₀, entries.map .root⟩)
    (h : rules.analyze n st₀ entries = .failed st f) :
    ∃ c, P c ∧ c.state = st ∧ rules.step c = .error f := by
  obtain ⟨c, holds, ends⟩ := run_endsAt kept n start
  rw [Rules.analyze] at h
  split at h
  · contradiction
  · rw [h] at ends
    cases ends with
    | failed fault => exact ⟨c, holds, rfl, fault⟩

/-- **Invariants of states**: what steps and notes in the history keep holds where an analysis ends,
however it ends. -/
theorem analyze_keeps {rules : Rules} {P : State → Prop}
    (kept : ∀ {c c' : Config}, P c.state → Advances rules c c' → P c'.state)
    (noted : ∀ {st : State} (e : Event), P st → P (st.record e)) (n : Nat) {st : State}
    (entries : List Method) (start : P st) : P (rules.analyze n st entries).state := by
  obtain ⟨c, holds, ends⟩ : ∃ c : Config, P c.state ∧
      EndsAt rules Rules.done c (rules.run Rules.done n ⟨st, entries.map .root⟩) :=
    run_endsAt (P := fun c => P c.state) (fun hc hstep => kept hc (advances_of_step hstep)) n start
  rw [Rules.analyze]
  rw [← ends.state] at holds
  split
  · next st' hrun =>
    rw [hrun] at holds
    exact noted _ holds
  · exact holds

end PointsTo

end StaticAnalysis
