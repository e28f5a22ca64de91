import StaticAnalysis.Proofs.PointsTo.Discovery

/-!
# Objects in flight

Between two entries of the worklist some objects are at their pointers and others on their way.
Objects, flow edges and waiting statements come together in any order; whichever of them comes last
has to see to it that none is forgotten.

* `State.Applied` — the effect of a waiting statement on an object is in place.
* `applied_of_waiting` — at a head of the loop a waiting statement has been applied to all objects
  of its operand.
* `Task.executes?`, `BoundOnce` — a statement that is to be executed does not wait yet, and is on
  the agenda once.
* `BoundOnce.perform` — **one task keeps this**: a method is entered once, no statement stands twice
  in its body, and those that wait or are to be executed stand in methods that were entered before.

**Main statement** (`nothing_lost_in_flight`): at every head of the worklist loop objects have
followed the flow edges or are on their way, waiting statements have been applied and wait once, and
nothing is lost up to any later head.
-/

namespace StaticAnalysis.PointsTo

/-- The effect of a waiting statement on an object is in place: the flow edge of an access; the call
edge of a call that has a target, with the object at the receiver variable of the callee or on its
way there. -/
def State.Applied (rules : Rules) (st : State) (s : CtxStmt) (o : HeapObj) : Prop :=
  match s.2.op with
  | .loadField target _ field => .var s.1 target ∈ st.successors (.member o field)
  | .storeField _ field source => .member o field ∈ st.successors (.var s.1 source)
  | .loadElement target _ => .var s.1 target ∈ st.successors (.element o)
  | .storeElement _ source => .element o ∈ st.successors (.var s.1 source)
  | .call call => ∀ callee, rules.code.resolveCallee o.alloc.type call = some callee →
      ∃ context, rules.selector.calleeContext s.1 s.2 (some o) = some context ∧
        ⟨call.kind, s, (context, callee)⟩ ∈ st.graph.edges ∧
        ∀ v, callee.this? = some v → st.Due (.var context (some v)) o
  | _ => False

/-- The statement that a task executes for the first time. -/
def Task.executes? : Task → Option CtxStmt
  | .exec s => some s
  | _ => none

/-- The statements that are to be executed and those that wait for a pointer: no statement is among
them twice. -/
def BoundOnce (c : Config) : Prop :=
  ∀ p, (c.agenda.filterMap Task.executes? ++ c.state.waitingFor p).Nodup

section Steps

variable {rules : Rules} {st st' : State} {t : Task} {rest next : List Task}

namespace BoundOnce

/-- A task that begins no execution and lets nothing wait. -/
theorem same (h : BoundOnce ⟨st, t :: rest⟩) (waitingFor : ∀ p, st'.waitingFor p = st.waitingFor p)
    (quiet : next.filterMap Task.executes? = []) : BoundOnce ⟨st', next ++ rest⟩ := by
  intro p
  show ((next ++ rest).filterMap Task.executes? ++ st'.waitingFor p).Nodup
  rw [List.filterMap_append, quiet, List.nil_append, waitingFor p]
  have fewer : (rest.filterMap Task.executes?).Sublist ((t :: rest).filterMap Task.executes?) :=
    (List.sublist_cons_self t rest).filterMap _
  exact (h p).sublist (fewer.append_right _)

/-- **A statement that begins to wait** was to be executed, so it did not wait before and is not to
be executed again. -/
theorem hold {s : CtxStmt} {v : Operand} (h : BoundOnce ⟨st, .exec s :: rest⟩) :
    BoundOnce ⟨(hold st s v).1, (hold st s v).2 ++ rest⟩ := by
  have quiet : (PointsTo.hold st s v).2.filterMap Task.executes? = [] := by
    rw [tasks_hold]
    split <;> rfl
  intro p
  have before : (s :: (rest.filterMap Task.executes? ++ st.waitingFor p)).Nodup := h p
  show (((PointsTo.hold st s v).2 ++ rest).filterMap Task.executes? ++
    (PointsTo.hold st s v).1.waitingFor p).Nodup
  rw [List.filterMap_append, quiet, List.nil_append, waitingFor_hold]
  split
  · rw [← List.append_assoc]
    exact (List.perm_append_singleton s _).nodup_iff.mpr before
  · exact (List.nodup_cons.mp before).2

/-- **A method is entered**: its statements are new, since the others stand in methods that were
entered before. -/
theorem enter (declared : rules.code.Declared) {m : CtxMethod}
    (traced : Traced rules.code ⟨st, .enter m :: rest⟩) (h : BoundOnce ⟨st, .enter m :: rest⟩)
    (new : m ∉ st.graph.reachable) :
    BoundOnce ⟨st.reach m, ((rules.code.body m.2).stmts.map fun s => .exec (m.1, s)) ++ rest⟩ := by
  have started :
      ((rules.code.body m.2).stmts.map fun s => Task.exec (m.1, s)).filterMap Task.executes?
      = (rules.code.body m.2).stmts.map fun s => (m.1, s) := by
    rw [List.filterMap_map, ← List.filterMap_eq_map]
    rfl
  have distinct : ((rules.code.body m.2).stmts.map fun s => (m.1, s)).Nodup :=
    List.Pairwise.map _ (fun s s' other same => other (Prod.mk.inj same).2)
      (declared.nodup_stmts m.2)
  have housed : ∀ p, ∀ s ∈ rest.filterMap Task.executes? ++ st.waitingFor p, st.Houses s := by
    intro p s hs
    rcases List.mem_append.mp hs with begun | waits
    · obtain ⟨t, ht, executes⟩ := List.mem_filterMap.mp begun
      have placed := traced.agenda t (List.mem_cons_of_mem _ ht)
      cases t with
      | exec s' => exact Option.some.inj executes ▸ placed
      | _ => cases executes
    · exact traced.waiting p s waits
  intro p
  show ((_ ++ rest).filterMap Task.executes? ++ st.waitingFor p).Nodup
  rw [List.filterMap_append, started, List.append_assoc]
  refine List.nodup_append.mpr ⟨distinct, h p, ?_⟩
  intro s hs s' hs' same
  obtain ⟨stmt, mem, rfl⟩ := List.mem_map.mp hs
  have reachable : (m.1, stmt.method) ∈ st.graph.reachable := housed p (m.1, stmt) (same ▸ hs')
  rw [declared.method_of_mem_stmts mem] at reachable
  exact new reachable

/-- **One task keeps the invariant.** -/
theorem perform (declared : rules.code.Declared) (traced : Traced rules.code ⟨st, t :: rest⟩)
    (h : BoundOnce ⟨st, t :: rest⟩) (done : Performs rules st t st' next) :
    BoundOnce ⟨st', next ++ rest⟩ := by
  cases done with
  | enter new => exact h.enter declared traced new
  | hold awaits gives => exact h.hold
  | direct awaits connected gives => exact h.same connected.waitingFor rfl
  | access connected gives => exact h.same connected.waitingFor rfl
  | wire connected gives => exact h.same connected.waitingFor rfl
  | @callOn s o e gives => exact h.same (st.waitingFor_seed e.callee o) rfl
  | @spread s objs ordered call perm =>
    refine h.same (fun p => rfl) (List.filterMap_eq_nil_iff.mpr ?_)
    intro t ht
    obtain ⟨o, -, rfl⟩ := List.mem_map.mp ht
    rfl
  | _ => exact h.same (fun p => rfl) rfl

theorem advance (declared : rules.code.Declared) {c c' : Config} (traced : Traced rules.code c)
    (h : BoundOnce c) (step : Advances rules c c') : BoundOnce c' := by
  cases step with
  | task done =>
    have kept := h.perform declared traced done
    exact fun p => kept p
  | @arrival st p objs rest c pop arrives =>
    have quiet : c.agenda.filterMap Task.executes? = [] := by
      rw [arrives.agenda]
      split <;> rfl
    intro q
    show (c.agenda.filterMap Task.executes? ++ c.state.waitingFor q).Nodup
    rw [quiet, arrives.waitingFor q]
    exact h q
  | idle empty => exact h

end BoundOnce

end Steps

theorem BoundOnce.start (entries : List Method) : BoundOnce ⟨{}, entries.map .root⟩ := by
  have quiet : (entries.map Task.root).filterMap Task.executes? = [] := by
    refine List.filterMap_eq_nil_iff.mpr ?_
    intro t ht
    obtain ⟨m, -, rfl⟩ := List.mem_map.mp ht
    rfl
  intro p
  show ((entries.map Task.root).filterMap Task.executes? ++ []).Nodup
  rw [quiet]
  exact List.nodup_nil

/-! ### At the heads of the loop -/

section Heads

variable {rules : Rules} {entries : List Method} {n : Nat} {st : State}

theorem nodup_waitingFor_at_head (declared : rules.code.Declared)
    (h : rules.headAfter? {} entries n = some st) (p : Pointer) : (st.waitingFor p).Nodup := by
  let Inv (c : Config) : Prop := Traced rules.code c ∧ BoundOnce c
  have kept : ∀ {c c' : Config}, Inv c → Advances rules c c' → Inv c' :=
    fun hc step => ⟨hc.1.advance declared step, hc.2.advance declared hc.1 step⟩
  have start : Inv ⟨{}, entries.map .root⟩ := ⟨.start rules.code entries, .start entries⟩
  exact (holds_at_head kept start h).2 p

/-- **A waiting statement has been applied to the objects of its operand**, at a head of the loop:
all that the rules give is settled. -/
theorem applied_of_waiting (decides : ∀ k, rules.selector ≠ .undecided k)
    (h : rules.headAfter? {} entries n = some st) {p : Pointer} {s : CtxStmt}
    (waits : s ∈ st.waitingFor p) {o : HeapObj} (ho : o ∈ st.objectsOf p) :
    st.Applied rules s o := by
  have given : ∀ f, rules.GivesOn s o f → st.Settles f :=
    fun f gives => ((pursued_at_head h).applied p s waits o ho f gives).settled
  obtain ⟨-, v, awaits, -⟩ := (justified_at_head h).waiting p s waits
  unfold State.Applied
  cases hop : s.2.op with
  | loadField target base field => exact given _ (.load hop)
  | storeField base field source => exact given _ (.store hop)
  | loadElement target base => exact given _ (.loadElement hop)
  | storeElement base source => exact given _ (.storeElement hop)
  | call call =>
    intro callee target
    cases chosen : rules.selector.calleeContext s.1 s.2 (some o) with
    | none =>
      obtain ⟨k, open'⟩ := calleeContext_eq_none chosen
      exact absurd open' (decides k)
    | some context =>
      refine ⟨context, rfl, given _ (.call hop target chosen), ?_⟩
      intro v this
      exact given _ (.receiver hop target chosen this)
  | alloc target type => simp [Stmt.awaited?, hop] at awaits
  | copy target source => simp [Stmt.awaited?, hop] at awaits
  | leave value => simp [Stmt.awaited?, hop] at awaits
  | nop => simp [Stmt.awaited?, hop] at awaits
  | other => simp [Stmt.awaited?, hop] at awaits

end Heads

/-- **No object is lost in flight.** The code is made by declarations and the selector decides
contexts. At every head of the worklist loop:

* along a flow edge every object of the source is at the target, or an entry of the worklist brings
  it there;
* statements wait for variables, and have been applied to all objects that these point to
  (`State.Applied`);
* a statement waits for one pointer only, and once;
* up to any later head points-to sets, flow edges, call edges, reachable methods and waiting
  statements only grow, and nothing that is on its way is lost (`State.Grows`). -/
theorem nothing_lost_in_flight (rules : Rules) (declared : rules.code.Declared)
    (decides : ∀ k, rules.selector ≠ .undecided k) (entries : List Method) (n : Nat) (st : State)
    (h : rules.headAfter? {} entries n = some st) :
    (∀ p, ∀ q ∈ st.successors p, ∀ o ∈ st.objectsOf p,
      o ∈ st.objectsOf q ∨ ∃ objs, (q, objs) ∈ st.work.toList ∧ o ∈ objs) ∧
    (∀ p, ∀ s ∈ st.waitingFor p, p.isVar = true ∧ ∀ o ∈ st.objectsOf p, st.Applied rules s o) ∧
    ((∀ p, (st.waitingFor p).Nodup) ∧ ∀ p q, ∀ s ∈ st.waitingFor p, s ∈ st.waitingFor q → p = q) ∧
    ∀ n' st', n ≤ n' → rules.headAfter? {} entries n' = some st' → State.Grows st st' := by
  refine ⟨?_, ?_, ⟨nodup_waitingFor_at_head declared h, ?_⟩, ?_⟩
  · intro p q hq o ho
    exact (pursued_at_head h).flow p q hq o ho
  · intro p s hs
    exact ⟨(pursued_at_head h).vars p s hs, fun o ho => applied_of_waiting decides h hs ho⟩
  · intro p q s hp hq
    obtain ⟨-, v, awaits, rfl⟩ := (justified_at_head h).waiting p s hp
    obtain ⟨-, w, awaits', rfl⟩ := (justified_at_head h).waiting q s hq
    rw [Option.some.inj (awaits.symm.trans awaits')]
  · intro n' st' later h'
    exact head_grows later h h'

namespace Sample

/-- The variables `a` and `b` of `main`, and the statement between them that waits for `a`. -/
def a : Pointer := .var [] (some (cellVar main "a"))

def b : Pointer := .var [] (some (cellVar main "b"))

def store : CtxStmt :=
  ([], ⟨⟨2, main⟩, .storeField (cellVar main "a") next (cellVar main "b"), false⟩)

end Sample

/-- In the sample program, at the second head: the cell is at `a` and on its way to `b`, and the
statement that stores into it has been applied. The first head at which nothing is on its way comes
after 39 steps. -/
theorem nothing_lost_in_flight_sample :
    ∃ st st', (Sample.declaredRules (.objectChain 1)).headAfter? {} [Sample.main] 10 = some st ∧
      (Sample.declaredRules (.objectChain 1)).headAfter? {} [Sample.main] 39 = some st' ∧
      Sample.b ∈ st.successors Sample.a ∧ Sample.theCell ∈ st.objectsOf Sample.a ∧
      Sample.theCell ∉ st.objectsOf Sample.b ∧
      (∃ objs, (Sample.b, objs) ∈ st.work.toList ∧ Sample.theCell ∈ objs) ∧
      Sample.store ∈ st.waitingFor Sample.a ∧
      Pointer.member Sample.theCell Sample.next ∈ st.successors Sample.b ∧
      (st.waitingFor Sample.a).Nodup ∧ State.Grows st st' := by
  have looks :
      ((Sample.declaredRules (.objectChain 1)).headAfter? {} [Sample.main] 10).map (fun st =>
      decide (Sample.b ∈ st.successors Sample.a ∧ Sample.theCell ∈ st.objectsOf Sample.a ∧
        Sample.theCell ∉ st.objectsOf Sample.b ∧ Sample.store ∈ st.waitingFor Sample.a)) =
        some true := by
    decide +kernel
  have later : ((Sample.declaredRules (.objectChain 1)).headAfter? {} [Sample.main] 39).isSome =
      true := by
    decide +kernel
  obtain ⟨st, head, facts⟩ := Option.map_eq_some_iff.mp looks
  obtain ⟨st', head'⟩ := Option.isSome_iff_exists.mp later
  obtain ⟨flows, present, absent, waits⟩ := of_decide_eq_true facts
  obtain ⟨follows, applied, ⟨once, -⟩, grows⟩ := nothing_lost_in_flight _ Sample.declared
    (fun k => by simp [Sample.declaredRules]) [Sample.main] 10 st head
  refine ⟨st, st', head, head', flows, present, absent, ?_, waits, ?_, once Sample.a, ?_⟩
  · exact (follows _ _ flows _ present).resolve_left absent
  · exact (applied _ _ waits).2 _ present
  · exact grows 39 st' (by decide) head'

end StaticAnalysis.PointsTo
