import StaticAnalysis.Proofs.PointsTo.CallStrings
import StaticAnalysis.Proofs.PointsTo.Mentions

/-!
# How long contexts get

Under a selector of depth `k`, contexts of methods have at most `k` elements and those of objects at
most `k - 1`. So there is room for one more element behind the context of an object, and under
object chains a receiver object is told by the context of the method that it is the receiver of.

* `Pointer.Within`, `Fact.Within`, `State.Within` — the contexts in a pointer, a fact, or a whole
  state are within these bounds. `closed_within` says that no inference leads beyond them.
* `Task.Loaded` — statements are applied to at least one object.
* `Contained` — the invariant of runs; `Contained.step` is the step lemma.
* `Rules.ReceivesAlone` — nothing but calls on objects writes a variable; `Told` — what is known of
  it then.

**Main statement** (`contexts_within_depth`): the bounds hold at every step of every run, and under
object chains of positive depth a receiver variable has at most one object under each context.
-/

namespace StaticAnalysis

/-! ### Bounds -/

/-- The context of an object is shorter by one than the bound for methods. -/
def HeapObj.Within (k : Int) (o : HeapObj) : Prop := o.context.length ≤ (k - 1).toNat

/-- The contexts in a pointer are within their bounds. -/
def Pointer.Within (k : Int) : Pointer → Prop
  | .var context _ => context.length ≤ k.toNat
  | .static _ => True
  | .member base _ => base.Within k
  | .element base => base.Within k

theorem length_lastK_le {α : Type} (xs : List α) (k : Int) : (lastK xs k).length ≤ k.toNat := by
  rw [length_lastK]
  exact Nat.min_le_right _ _

theorem lastK_of_length_le {α : Type} {xs : List α} {k : Int} (h : xs.length ≤ k.toNat) :
    lastK xs k = xs := by
  rw [lastK_eq_drop, Nat.sub_eq_zero_of_le h]
  rfl

namespace Selector

variable {kind : Int → Selector} (hkind : kind ∈ kinds) {k : Int}

include hkind

theorem length_heapContext (c : Context) : ((kind k).heapContext c).length ≤ (k - 1).toNat := by
  have cut : (kind k).heapContext c = lastK c (k - 1) := by
    rcases mem_kinds.mp hkind with rfl | rfl | rfl <;> rfl
  rw [cut]
  exact length_lastK_le c (k - 1)

/-- A callee's context is that of the caller, or it is cut down. -/
theorem calleeContext_cases {c d : Context} {s : Stmt} {receiver : Option HeapObj}
    (h : (kind k).calleeContext c s receiver = some d) : d = c ∨ ∃ e, d = lastK e k := by
  rcases mem_kinds.mp hkind with rfl | rfl | rfl
  · exact Or.inr ⟨_, (Option.some.inj h).symm⟩
  all_goals
    cases receiver with
    | none => exact Or.inl (Option.some.inj h).symm
    | some o => exact Or.inr ⟨_, (Option.some.inj h).symm⟩

theorem length_calleeContext {c d : Context} {s : Stmt} {receiver : Option HeapObj}
    (hc : c.length ≤ k.toNat) (h : (kind k).calleeContext c s receiver = some d) :
    d.length ≤ k.toNat := by
  rcases calleeContext_cases hkind h with rfl | ⟨e, rfl⟩
  · exact hc
  · exact length_lastK_le e k

end Selector

namespace PointsTo

/-- The contexts in a fact are within their bounds. -/
def Fact.Within (k : Int) : Fact → Prop
  | .reached m => m.1.length ≤ k.toNat
  | .called e => e.site.1.length ≤ k.toNat ∧ e.callee.1.length ≤ k.toNat
  | .flows p q => p.Within k ∧ q.Within k
  | .pointsTo p o => p.Within k ∧ o.Within k

/-- All contexts in a state are within their bounds: those of methods, call edges and waiting
statements, of pointers and objects in its points-to sets, flow edges and worklist, and of all
pointers and objects in its pool. -/
structure State.Within (k : Int) (st : State) : Prop where
  facts : ∀ f, st.Settles f → f.Within k
  waiting : ∀ p, ∀ s ∈ st.waitingFor p, s.1.length ≤ k.toNat
  pointers : ∀ p ∈ st.pool.pointers, p.Within k
  objects : ∀ o ∈ st.pool.objects, o.Within k

section Facts

variable {rules : Rules} {entries : List Method} {kind : Int → Selector} {k : Int}
  (hkind : kind ∈ Selector.kinds) (selector : rules.selector = kind k)

include hkind selector

theorem Rules.Gives.within {s : CtxStmt} {f : Fact} (hs : s.1.length ≤ k.toNat)
    (h : rules.Gives s f) : f.Within k := by
  cases h with
  | alloc hop =>
    refine ⟨hs, ?_⟩
    show (rules.selector.heapContext s.1).length ≤ (k - 1).toNat
    rw [selector]
    exact Selector.length_heapContext hkind s.1
  | copy hop ref => exact ⟨hs, hs⟩
  | loadStatic hop ref static => exact ⟨trivial, hs⟩
  | storeStatic hop ref static => exact ⟨hs, trivial⟩
  | call hop static target chosen =>
    rw [selector] at chosen
    exact ⟨hs, Selector.length_calleeContext hkind hs chosen⟩

theorem Rules.GivesOn.within {s : CtxStmt} {o : HeapObj} {f : Fact} (hs : s.1.length ≤ k.toNat)
    (ho : o.Within k) (h : rules.GivesOn s o f) : f.Within k := by
  cases h with
  | load hop => exact ⟨ho, hs⟩
  | store hop => exact ⟨hs, ho⟩
  | loadElement hop => exact ⟨ho, hs⟩
  | storeElement hop => exact ⟨hs, ho⟩
  | call hop target chosen =>
    rw [selector] at chosen
    exact ⟨hs, Selector.length_calleeContext hkind hs chosen⟩
  | receiver hop target chosen this =>
    rw [selector] at chosen
    exact ⟨Selector.length_calleeContext hkind hs chosen, ho⟩

/-- **No inference leads beyond the bounds.** -/
theorem closed_within : rules.Closed entries (Fact.Within k) := by
  intro premises f step known
  cases step with
  | entry hm => exact Nat.zero_le _
  | @stmt m s f mem gives =>
    have hm : m.1.length ≤ k.toNat := known (.reached m) List.mem_cons_self
    exact gives.within hkind selector hm
  | @onObject m s v o f mem awaits gives =>
    have hm : m.1.length ≤ k.toNat := known (.reached m) List.mem_cons_self
    have ho : Fact.Within k (.pointsTo (.var m.1 v) o) := known _ (by simp)
    exact gives.within hkind selector hm ho.2
  | @callee e => exact (known (.called e) List.mem_cons_self).2
  | @wiring e f gives =>
    obtain ⟨site, callee⟩ := known (.called e) List.mem_cons_self
    cases gives with
    | argument hop pair ref => exact ⟨site, callee⟩
    | result hop result ref returned => exact ⟨callee, site⟩
  | @flow p q o =>
    have flows : Fact.Within k (.flows p q) := known _ List.mem_cons_self
    have ho : Fact.Within k (.pointsTo p o) := known _ (by simp)
    exact ⟨flows.2, ho.2⟩

theorem Rules.Derivable.within {f : Fact} (h : rules.Derivable entries f) : f.Within k :=
  h.mem_of_closed (closed_within hkind selector)

end Facts

/-! ### Statements are applied to objects -/

/-- A task that applies statements to objects has objects. -/
def Task.Loaded : Task → Prop
  | .resume _ objs => objs ≠ []
  | .notify _ _ objs => objs ≠ []
  | _ => True

theorem Performs.loaded {rules : Rules} {st st' : State} {t : Task} {next : List Task}
    (done : Performs rules st t st' next) (h : t.Loaded) : ∀ t' ∈ next, t'.Loaded := by
  intro t' ht'
  cases done with
  | enter hm =>
    obtain ⟨s, -, rfl⟩ := List.mem_map.mp ht'
    exact trivial
  | @hold s v awaits gives =>
    rw [tasks_hold] at ht'
    split at ht'
    · exact absurd ht' List.not_mem_nil
    · next some =>
      rw [List.mem_singleton] at ht'
      subst ht'
      exact fun empty => some (List.isEmpty_iff.mpr empty)
  | spread call perm =>
    obtain ⟨o, -, rfl⟩ := List.mem_map.mp ht'
    exact trivial
  | notify hs =>
    rcases List.mem_cons.mp ht' with rfl | ht'
    · exact h
    · obtain rfl := List.mem_singleton.mp ht'
      exact h
  | link he =>
    rcases List.mem_cons.mp ht' with rfl | ht'
    · exact trivial
    · obtain rfl := List.mem_singleton.mp ht'
      exact trivial
  | root m =>
    obtain rfl := List.mem_singleton.mp ht'
    exact trivial
  | callDirectly awaits gives =>
    obtain rfl := List.mem_singleton.mp ht'
    exact trivial
  | callOn gives =>
    obtain rfl := List.mem_singleton.mp ht'
    exact trivial
  | _ => exact absurd ht' List.not_mem_nil

/-! ### Runs -/

/-- The invariant of runs: all is justified, statements are applied to objects, and the pool is
within the bounds. -/
structure Contained (rules : Rules) (entries : List Method) (k : Int) (c : Config) : Prop where
  justified : Justified rules entries c
  loaded : ∀ t ∈ c.agenda, t.Loaded
  pointers : ∀ p ∈ c.state.pool.pointers, p.Within k
  objects : ∀ o ∈ c.state.pool.objects, o.Within k

theorem Contained.start {rules : Rules} {entries : List Method} {k : Int} :
    Contained rules entries k ⟨{}, entries.map .root⟩ := by
  refine ⟨.start, ?_, ?_, ?_⟩
  · intro t ht
    obtain ⟨m, -, rfl⟩ := List.mem_map.mp ht
    exact trivial
  · intro p hp
    exact absurd hp List.not_mem_nil
  · intro o ho
    exact absurd ho List.not_mem_nil

section Runs

variable {rules : Rules} {entries : List Method} {kind : Int → Selector} {k : Int}
  (hkind : kind ∈ Selector.kinds) (selector : rules.selector = kind k)

include hkind selector

theorem Stands.within {s : CtxStmt} (h : Stands rules entries s) : s.1.length ≤ k.toNat := by
  obtain ⟨m, reached, -⟩ := h
  exact reached.within hkind selector

/-- What a justified task touches is within the bounds. -/
theorem Task.Touches.within {t : Task} {p : Pointer} (justified : t.Justified rules entries)
    (loaded : t.Loaded) (h : t.Touches rules p) : p.Within k := by
  cases t with
  | exec s =>
    have stands : s.1.length ≤ k.toNat := Stands.within hkind selector justified
    cases p with
    | var context v =>
      obtain rfl : context = s.1 := h
      exact stands
    | static field => exact trivial
    | _ => exact absurd h id
  | resume s objs =>
    obtain ⟨o, ho⟩ := List.exists_mem_of_ne_nil objs loaded
    have stands : s.1.length ≤ k.toNat := (justified.2 o ho).1.within hkind selector
    have given : ∀ o ∈ objs, o.Within k := by
      intro o ho
      obtain ⟨-, v, -, derivable⟩ := justified.2 o ho
      exact (derivable.within hkind selector).2
    cases p with
    | var context v =>
      obtain rfl : context = s.1 := h
      exact stands
    | static field => exact trivial
    | member base field => exact given base h
    | element base => exact given base h
  | invoke s o =>
    have stands : s.1.length ≤ k.toNat := justified.2.1.within hkind selector
    cases p with
    | var context v =>
      have chosen : rules.selector.calleeContext s.1 s.2 (some o) = some context := h
      rw [selector] at chosen
      exact Selector.length_calleeContext hkind stands chosen
    | _ => exact absurd h id
  | wire e =>
    have bounds : Fact.Within k (.called e) := Rules.Derivable.within hkind selector justified
    cases p with
    | var context v =>
      rcases h with rfl | rfl
      · exact bounds.1
      · exact bounds.2
    | _ => exact absurd h id
  | _ => exact absurd h id

theorem Task.Creates.within {t : Task} {o : HeapObj} (h : t.Creates rules o) : o.Within k := by
  cases t with
  | exec s =>
    have context : o.context = rules.selector.heapContext s.1 := h
    rw [HeapObj.Within, context, selector]
    exact Selector.length_heapContext hkind s.1
  | _ => exact absurd h id

/-- **One step keeps the invariant.** -/
theorem Contained.step {c c' : Config} (h : Contained rules entries k c)
    (step : rules.step c = .ok c') : Contained rules entries k c' := by
  have justified : Justified rules entries c' := h.justified.advance (advances_of_step step)
  obtain ⟨st, agenda⟩ := c
  cases agenda with
  | nil =>
    cases advances_of_step step with
    | @arrival st p objs rest c pop arrives =>
      refine ⟨justified, ?_, ?_, ?_⟩
      · intro t ht
        have ht' : t ∈ c.agenda := ht
        rw [arrives.agenda] at ht'
        split at ht'
        · exact absurd ht' List.not_mem_nil
        · next fresh =>
          rw [List.mem_singleton] at ht'
          subst ht'
          intro empty
          rw [empty] at fresh
          exact fresh rfl
      · show ∀ p ∈ c.state.pool.pointers, p.Within k
        rw [arrives.pool]
        exact h.pointers
      · show ∀ o ∈ c.state.pool.objects, o.Within k
        rw [arrives.pool]
        exact h.objects
    | idle empty => exact ⟨justified, h.loaded, h.pointers, h.objects⟩
  | cons t rest =>
    obtain ⟨r, performed, rfl⟩ := perform_of_step step
    have right : t.Justified rules entries := h.justified.agenda t List.mem_cons_self
    have loaded : t.Loaded := h.loaded t List.mem_cons_self
    have mentions := mentions_of_perform performed
    refine ⟨justified, ?_, ?_, ?_⟩
    · intro t' ht'
      rcases List.mem_append.mp ht' with next | later
      · exact (performs_of_perform performed).loaded loaded t' next
      · exact h.loaded t' (List.mem_cons_of_mem t later)
    · intro p hp
      rcases mentions.pointers p hp with old | touched
      · exact h.pointers p old
      · exact touched.within hkind selector right loaded
    · intro o ho
      rcases mentions.objects o ho with old | created
      · exact h.objects o old
      · exact created.within hkind selector

theorem Contained.within {c : Config} (h : Contained rules entries k c) : c.state.Within k := by
  refine ⟨?_, ?_, h.pointers, h.objects⟩
  · intro f hf
    exact (h.justified.settled f hf).within hkind selector
  · intro p s hs
    exact (h.justified.waiting p s hs).1.within hkind selector

end Runs

end PointsTo

/-! ### Receiver variables -/

/-- Receiver variables and parameters belong to their methods. -/
theorem Method.owner_of_this {m : Method} {v : Var} (h : m.this? = some v) : v.owner = m := by
  unfold Method.this? at h
  split at h
  · contradiction
  · rw [← Option.some.inj h]
    rfl

theorem Method.owner_of_mem_params {m : Method} {v : Var} (h : v ∈ m.params) : v.owner = m := by
  obtain ⟨p, -, rfl⟩ := List.mem_map.mp h
  rfl

/-- An object can be read off its context with the object itself behind it. -/
theorem HeapObj.eq_of_append_eq {o o' : HeapObj}
    (h : o.context ++ [Element.object o.alloc] = o'.context ++ [Element.object o'.alloc]) :
    o = o' := by
  obtain ⟨context, alloc⟩ := List.append_inj' h rfl
  cases o
  cases o'
  cases context
  cases alloc
  rfl

namespace PointsTo

/-- Nothing but calls on objects writes a variable: no statement does, and it is not a parameter. -/
structure Rules.ReceivesAlone (rules : Rules) (v : Var) : Prop where
  params : v ∉ v.owner.params
  stmts : ∀ m, ∀ s ∈ (rules.code.body m).stmts, s.defines? ≠ some v

/-- What is known of such a variable: an object that it has is the newest element of its context,
behind the object's own context, and nothing flows into it. -/
def Told (v : Var) : Fact → Prop
  | .pointsTo p o => ∀ c, p = .var c (some v) → c = o.context ++ [.object o.alloc]
  | .flows _ q => ∀ c, q ≠ .var c (some v)
  | _ => True

section Receivers

variable {rules : Rules} {entries : List Method} {k : Int} {v : Var}
  (selector : rules.selector = .objectChain k) (positive : 1 ≤ k) (alone : rules.ReceivesAlone v)

include selector positive alone

/-- Only calls on an object give such a variable an object, and they choose the context by the
object. -/
theorem closed_told : rules.Closed entries fun f => rules.Derivable entries f ∧ Told v f := by
  intro premises f step known
  refine ⟨.infer step fun g hg => (known g hg).1, ?_⟩
  -- a flow into the variable or an allocation would need a statement that writes it
  have unwritten : ∀ {m : Method} {s : Stmt} {w : Operand}, s ∈ (rules.code.body m).stmts →
      s.defines? = w → ∀ c d, Pointer.var d w ≠ .var c (some v) := by
    intro m s w mem writes c d heq
    cases heq
    exact alone.stmts m s mem writes
  cases step with
  | entry hm => exact trivial
  | callee => exact trivial
  | @stmt m s f mem gives =>
    cases gives with
    | alloc hop => exact fun c hp => absurd hp (unwritten mem (congrArg Op.defines? hop) c m.1)
    | copy hop ref => exact fun c => unwritten mem (congrArg Op.defines? hop) c m.1
    | loadStatic hop ref static => exact fun c => unwritten mem (congrArg Op.defines? hop) c m.1
    | storeStatic hop ref static => exact fun c hp => nomatch hp
    | call hop static target chosen => exact trivial
  | @onObject m s w o f mem awaits gives =>
    cases gives with
    | load hop => exact fun c => unwritten mem (congrArg Op.defines? hop) c m.1
    | store hop => exact fun c hp => nomatch hp
    | loadElement hop => exact fun c => unwritten mem (congrArg Op.defines? hop) c m.1
    | storeElement hop => exact fun c hp => nomatch hp
    | call hop target chosen => exact trivial
    | receiver hop target chosen this =>
      intro c hp
      cases hp
      have ho : rules.Derivable entries (.pointsTo (.var m.1 w) o) := (known _ (by simp)).1
      have bound : o.context.length ≤ (k - 1).toNat :=
        (ho.within (by simp [Selector.kinds]) selector).2
      have room : (o.context ++ [Element.object o.alloc]).length ≤ k.toNat := by
        rw [List.length_append, List.length_singleton]
        omega
      rw [selector] at chosen
      rw [← Option.some.inj chosen]
      exact lastK_of_length_le room
  | @wiring e f gives =>
    have called : rules.Derivable entries (.called e) := (known (.called e) List.mem_cons_self).1
    cases gives with
    | @argument call a p hop pair ref =>
      intro c hq
      cases hq
      have param : v ∈ e.callee.2.params := (List.of_mem_zip pair).2
      rw [← Method.owner_of_mem_params param] at param
      exact alone.params param
    | @result call r w hop result ref returned =>
      obtain ⟨m, -, site, -⟩ := called.site_of_called
      obtain ⟨s, hs, heq⟩ := List.mem_map.mp site
      have mem : e.site.2 ∈ (rules.code.body m.2).stmts := by
        rw [← heq]
        exact (List.mem_filter.mp hs).1
      have writes : e.site.2.defines? = some r := by
        rw [Stmt.defines?, hop]
        exact result
      exact fun c => unwritten mem writes c e.site.1
  | @flow p q o =>
    intro c hq
    exact absurd hq ((known (.flows p q) List.mem_cons_self).2 c)

/-- **Its context tells the object of a receiver variable.** -/
theorem context_of_receiver {c : Context} {o : HeapObj}
    (h : rules.Derivable entries (.pointsTo (.var c (some v)) o)) :
    c = o.context ++ [.object o.alloc] :=
  (h.mem_of_closed (closed_told selector positive alone)).2 c rfl

end Receivers

/-- **Contexts stay within the depth of the selector.** At every step of every run under call
strings, object chains or type chains of depth `k`, for any `k`, contexts of methods and variables
have at most `k` elements and contexts of objects at most `k - 1`; a bound that is not positive
leaves no elements.

Under object chains of positive depth, let `v` be the receiver variable of a method that is not
among its parameters and that no statement writes. Then every object of `v` under a context is the
last element of this context, behind the whole context of the object. So under each context `v` has
at most one object. -/
theorem contexts_within_depth (rules : Rules) (entries : List Method) (kind : Int → Selector)
    (k : Int) (hkind : kind ∈ Selector.kinds) (selector : rules.selector = kind k) (i : Nat) :
    (rules.stateAfter {} entries i).Within k ∧
    (rules.selector = .objectChain k → 1 ≤ k → ∀ (m : Method) (v : Var), m.this? = some v →
      v ∉ m.params →
      (∀ m', ∀ s ∈ (rules.code.body m').stmts, s.defines? ≠ some v) →
        ∀ c, (∀ o ∈ (rules.stateAfter {} entries i).objectsOf (.var c (some v)),
            c = o.context ++ [.object o.alloc]) ∧
          ∀ o ∈ (rules.stateAfter {} entries i).objectsOf (.var c (some v)),
            ∀ o' ∈ (rules.stateAfter {} entries i).objectsOf (.var c (some v)), o = o') := by
  have ended : ∃ c, Contained rules entries k c ∧
      EndsAt rules Rules.done c (rules.run Rules.done i ⟨{}, entries.map .root⟩) :=
    run_endsAt (fun hc step => hc.step hkind selector step) i .start
  obtain ⟨c, contained, ends⟩ := ended
  rw [Rules.stateAfter, ends.state]
  refine ⟨contained.within hkind selector, ?_⟩
  intro objectChain positive m v this param unwritten c'
  have alone : rules.ReceivesAlone v := by
    refine ⟨?_, unwritten⟩
    rw [Method.owner_of_this this]
    exact param
  have told : ∀ o ∈ c.state.objectsOf (.var c' (some v)), c' = o.context ++ [.object o.alloc] :=
    fun o ho => context_of_receiver objectChain positive alone (contained.justified.objects ho)
  refine ⟨told, ?_⟩
  intro o ho o' ho'
  apply HeapObj.eq_of_append_eq
  rw [← told o ho]
  exact told o' ho'

/-- In the sample program the receiver of `follow` is the cell. -/
theorem contexts_within_depth_sample :
    ((Sample.rules (.objectChain 1)).stateAfter {} [Sample.main] 60).Within 1 ∧
    Sample.theCell ∈ ((Sample.rules (.objectChain 1)).stateAfter {} [Sample.main] 60).objectsOf
      (.var [.object Sample.theCell.alloc] (some (Sample.cellVar Sample.follow "@this"))) ∧
    ∀ c, ∀ o ∈ ((Sample.rules (.objectChain 1)).stateAfter {} [Sample.main] 60).objectsOf
      (.var c (some (Sample.cellVar Sample.follow "@this"))),
      c = o.context ++ [.object o.alloc] := by
  have unwritten : ∀ s ∈ Sample.code.allStmts,
      s.defines? ≠ some (Sample.cellVar Sample.follow "@this") := by
    decide
  obtain ⟨within, receivers⟩ := contexts_within_depth (Sample.rules (.objectChain 1)) [Sample.main]
    .objectChain 1 (by simp [Selector.kinds]) rfl 60
  refine ⟨within, by decide, fun c => ?_⟩
  exact (receivers rfl (by decide) Sample.follow _ rfl (by decide)
    (fun m s hs => unwritten s (CodeBase.mem_allStmts hs)) c).1

end PointsTo

end StaticAnalysis
