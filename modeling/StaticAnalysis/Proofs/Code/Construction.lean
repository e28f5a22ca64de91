import Mathlib.Data.List.Basic
import StaticAnalysis.Code.Outline
import StaticAnalysis.Proofs.Code.Declarations
import StaticAnalysis.Proofs.Code.Registration

/-!
# Programs under construction

A program is built step by step, and a step may end in a fault: a name is taken, an identifier
stands for nothing, the operands of a statement do not fit. What was done before the fault stays
done, so a step is atomic only if all that can fail comes before anything is registered or added.

* `Op.WellFormed` — a base variable or a receiver is there if and only if it has to be.
  `Draft.check_eq_ok_iff` — a statement is accepted if and only if it writes down a well-formed
  operation.
* `CodeBase.Undisturbed` — no class was registered and no statement added. `Assemble.Keeps` — work
  that disturbs nothing, however it ends; all that a statement names is looked up in this way
  (`keeps_draft`).
* `CodeBase.Effect` — all that work can do to the code, given how it ends. A fault goes with no
  effect but the quiet one.
* `Step`, `Step.effect` — the steps of a construction, one case each. `Assembly.ofSteps`,
  `Assembly.records` — what a sequence of steps makes and which classes it registers;
  `declared_ofSteps` and `filled_ofSteps` hold after any sequence.

**Main statement** (`construction_atomic_and_indexed`): a fault leaves hierarchy and statements as
they were, and after any sequence of steps both agree with what was accepted.
-/

namespace StaticAnalysis

/-! ### Well-formed operations -/

/-- An access to a static field has no base variable, and an access to a field of objects has
one. -/
def Field.BaseFits (field : Field) (base : Option Var) : Prop :=
  (field.isStatic = true → base = none) ∧ (field.isStatic = false → base ≠ none)

/-- A static call has no receiver, and a call that is special, virtual or through an interface has
one. -/
def Call.ReceiverFits (c : Call) : Prop :=
  (c.kind = .static → c.receiver = none) ∧
    (c.kind = .special ∨ c.kind = .virtual ∨ c.kind = .interface → c.receiver ≠ none)

def Op.WellFormed : Op → Prop
  | .loadField _ base field => field.BaseFits base
  | .storeField base field _ => field.BaseFits base
  | .call c => c.ReceiverFits
  | _ => True

theorem Field.baseFits_iff {field : Field} {base : Option Var} :
    field.BaseFits base ↔ field.isStatic = base.isNone := by
  cases base <;> cases static : field.isStatic <;> simp [BaseFits, static]

theorem Call.receiverFits_iff {c : Call} : c.ReceiverFits ↔
    ¬ (c.kind = .static ∧ c.receiver.isSome) ∧ ¬ (c.kind.needsReceiver ∧ c.receiver.isNone) := by
  obtain ⟨kind, target, receiver, args, result⟩ := c
  cases kind <;> cases receiver <;> simp [ReceiverFits, CallKind.needsReceiver]

namespace Draft

theorem checkCall_eq_ok_iff {m : Method} {kind : CallKind} {target : Option Target}
    {receiver : Option Var} {args : List Operand} {result : Option Var} {c : Call} :
    checkCall m kind target receiver args result = .ok c ↔
      Draft.call kind target receiver args result = (Op.call c).written ∧ c.ReceiverFits := by
  constructor
  · intro accepted
    rw [checkCall.eq_def] at accepted
    split at accepted
    · cases accepted
    · split at accepted
      · cases accepted
      · next expected =>
        split at accepted
        · cases accepted
        · next present =>
          cases accepted
          exact ⟨rfl, Call.receiverFits_iff.mpr ⟨expected, present⟩⟩
  · intro ⟨written, fits⟩
    obtain ⟨expected, present⟩ := Call.receiverFits_iff.mp fits
    cases written
    rw [checkCall, if_neg expected, if_neg present]

/-- **A statement is accepted if and only if it writes down a well-formed operation.** -/
theorem check_eq_ok_iff {m : Method} {draft : Draft} {op : Op} :
    draft.check m = .ok op ↔ draft = op.written ∧ op.WellFormed := by
  constructor
  · intro accepted
    cases draft with
    | loadField target base field =>
      rw [check] at accepted
      split at accepted
      · next fits =>
        cases accepted
        exact ⟨rfl, Field.baseFits_iff.mpr fits⟩
      · cases accepted
    | storeField base field source =>
      rw [check] at accepted
      split at accepted
      · next fits =>
        cases accepted
        exact ⟨rfl, Field.baseFits_iff.mpr fits⟩
      · cases accepted
    | call kind target receiver args result =>
      obtain ⟨c, checked, rfl⟩ := CodeBase.exists_of_map_ok accepted
      exact checkCall_eq_ok_iff.mp checked
    | _ =>
      cases accepted
      exact ⟨rfl, trivial⟩
  · rintro ⟨rfl, fits⟩
    cases op with
    | loadField target base field => exact if_pos (Field.baseFits_iff.mp fits)
    | storeField base field source => exact if_pos (Field.baseFits_iff.mp fits)
    | call c =>
      rw [Op.written, check, checkCall_eq_ok_iff.mpr ⟨rfl, fits⟩]
      rfl
    | _ => rfl

end Draft

/-! ### Work that disturbs nothing -/

/-- No class was registered and no statement was added; declarations may have been made
otherwise. -/
structure CodeBase.Undisturbed (before after : CodeBase) : Prop where
  hierarchy : after.hierarchy = before.hierarchy
  stmts : ∀ m, (after.body m).stmts = (before.body m).stmts
  declared : before.Declared → after.Declared

namespace CodeBase.Undisturbed

theorem refl (code : CodeBase) : Undisturbed code code := ⟨rfl, fun _ => rfl, id⟩

theorem trans {first second third : CodeBase} (h : Undisturbed first second)
    (h' : Undisturbed second third) : Undisturbed first third :=
  ⟨h'.hierarchy.trans h.hierarchy, fun m => (h'.stmts m).trans (h.stmts m),
    h'.declared ∘ h.declared⟩

theorem varNamed (code : CodeBase) (m : Method) (name : String) (type : Ty) :
    Undisturbed code (code.varNamed m name type).2 where
  hierarchy := by
    unfold CodeBase.varNamed
    split <;> rfl
  stmts n := stmts_varNamed m n name type
  declared known := known.varNamed m name type

end CodeBase.Undisturbed

namespace Assemble

open CodeBase (Undisturbed)

variable {α β : Type}

/-- How work ends, with a result or a fault. -/
def outcome (work : Assemble α) (a : Assembly) : Except Fault α := (work.run.run a).1

/-- What work leaves behind, however it ends. -/
def after (work : Assemble α) (a : Assembly) : Assembly := (work.run.run a).2

theorem run_bind (work : Assemble α) (next : α → Assemble β) (a : Assembly) :
    (work >>= next).run.run a =
    match work.outcome a with
    | .ok x => (next x).run.run (work.after a)
    | .error f => (.error f, work.after a) := by
  change (ExceptT.bindCont next (work.outcome a)).run (work.after a) = _
  cases work.outcome a <;> rfl

theorem outcome_bind (work : Assemble α) (next : α → Assemble β) (a : Assembly) :
    (work >>= next).outcome a =
    match work.outcome a with
    | .ok x => (next x).outcome (work.after a)
    | .error f => .error f := by
  rw [outcome, run_bind]
  cases work.outcome a <;> rfl

theorem after_bind (work : Assemble α) (next : α → Assemble β) (a : Assembly) :
    (work >>= next).after a =
    match work.outcome a with
    | .ok x => (next x).after (work.after a)
    | .error _ => work.after a := by
  rw [after, run_bind]
  cases work.outcome a <;> rfl

/-- Work that disturbs nothing, however it ends. -/
def Keeps (work : Assemble α) : Prop := ∀ a, Undisturbed a.code (work.after a).code

theorem keeps_pure (x : α) : Keeps (pure x) := fun a => .refl a.code

theorem keeps_throw (f : Fault) : Keeps (throw f : Assemble α) := fun a => .refl a.code

theorem keeps_get : Keeps (get : Assemble Assembly) := fun a => .refl a.code

theorem keeps_modifyGet {f : Assembly → α × Assembly} (h : ∀ a, Undisturbed a.code (f a).2.code) :
    Keeps (modifyGet f : Assemble α) := h

theorem Keeps.bind {work : Assemble α} {next : α → Assemble β} (keeps : Keeps work)
    (later : ∀ x, Keeps (next x)) : Keeps (work >>= next) := by
  intro a
  rw [after_bind]
  cases work.outcome a with
  | ok x => exact (keeps a).trans (later x _)
  | error f => exact keeps a

theorem Keeps.map {work : Assemble α} (keeps : Keeps work) (f : α → β) : Keeps (f <$> work) := by
  rw [← bind_pure_comp]
  exact keeps.bind fun x => keeps_pure (f x)

theorem keeps_mapM {f : α → Assemble β} (keeps : ∀ x, Keeps (f x)) (xs : List α) :
    Keeps (xs.mapM f) := by
  induction xs with
  | nil => exact keeps_pure []
  | cons x xs ih =>
    rw [List.mapM_cons]
    exact (keeps x).bind fun y => ih.bind fun ys => keeps_pure (y :: ys)

/-! ### Looking up what an outline names -/

theorem keeps_resolve (table : Assembly → Table String α) (id : String) :
    Keeps (resolve table id) := by
  refine keeps_get.bind fun a => ?_
  cases (table a).get? id with
  | none => exact keeps_throw _
  | some x => exact keeps_pure x

theorem keeps_fresh : Keeps fresh := keeps_modifyGet fun a => .refl a.code

theorem keeps_namedType (text : String) : Keeps (namedType text) := by
  unfold namedType
  split
  split
  · exact (keeps_pure _).bind fun _ => keeps_pure _
  · exact (keeps_pure _).bind fun _ => keeps_pure _
  · exact (keeps_pure _).bind fun _ => keeps_pure _
  · exact ((keeps_resolve _ _).map _).bind fun _ => keeps_pure _

theorem keeps_type (e : TypeExpr) : Keeps (type e) := by
  induction e with
  | unknown => exact keeps_pure _
  | name text => exact keeps_namedType text
  | prim name => exact keeps_fresh.bind fun n => keeps_pure _
  | plain name => exact keeps_fresh.bind fun n => keeps_pure _
  | array element ih => exact ih.bind fun t => keeps_pure _

theorem keeps_varNamed (m : Method) (name : String) (type : Ty) : Keeps (varNamed m name type) :=
  keeps_modifyGet fun a => .varNamed a.code m name type

theorem keeps_var (m : Method) (e : VarExpr) : Keeps (var m e) := by
  cases e with
  | own name => exact keeps_varNamed m name .unknown
  | foreign id name => exact (keeps_resolve _ id).bind fun n => keeps_varNamed n name .unknown

theorem keeps_operand (m : Method) (e : OperandExpr) : Keeps (operand m e) := by
  cases e with
  | none => exact keeps_pure none
  | some e => exact (keeps_var m e).map some

theorem keeps_callKind (label : String) : Keeps (callKind label) := by
  unfold callKind
  split
  · exact keeps_pure _
  · exact keeps_throw _

theorem keeps_target (e : TargetExpr) : Keeps (target e) := by
  cases e with
  | none => exact keeps_pure none
  | method id => exact (keeps_resolve _ id).bind fun m => keeps_pure _
  | member c subsignature => exact (keeps_resolve _ c).bind fun c => keeps_pure _

/-- **What a statement names is looked up without disturbing anything**, one case for every kind of
statement. -/
theorem keeps_draft (m : Method) (e : StmtExpr) : Keeps (draft m e) := by
  induction e with
  | alloc t ty => exact (keeps_operand m t).bind fun _ => (keeps_type ty).bind fun _ => keeps_pure _
  | copy t s =>
    exact (keeps_operand m t).bind fun _ => (keeps_operand m s).bind fun _ => keeps_pure _
  | loadField t b f =>
    exact (keeps_operand m t).bind fun _ => (keeps_operand m b).bind fun _ =>
      (keeps_resolve _ f).bind fun _ => keeps_pure _
  | storeField b f s =>
    exact (keeps_operand m b).bind fun _ => (keeps_resolve _ f).bind fun _ =>
      (keeps_operand m s).bind fun _ => keeps_pure _
  | loadElement t b =>
    exact (keeps_operand m t).bind fun _ => (keeps_operand m b).bind fun _ => keeps_pure _
  | storeElement b s =>
    exact (keeps_operand m b).bind fun _ => (keeps_operand m s).bind fun _ => keeps_pure _
  | call kind t r args res =>
    exact (keeps_callKind kind).bind fun _ => (keeps_target t).bind fun _ =>
      (keeps_operand m r).bind fun _ => (keeps_mapM (keeps_operand m) args).bind fun _ =>
      (keeps_operand m res).bind fun _ => keeps_pure _
  | leave v => exact (keeps_operand m v).bind fun _ => keeps_pure _
  | nop => exact keeps_pure _
  | other => exact keeps_pure _
  | refined s ih => exact ih.bind fun _ => keeps_pure _

end Assemble

/-! ### What work can do to the code -/

namespace CodeBase

/-- All that work on a program can do to the code, given how it ends: the classes that it registers,
with their links, stand between what was before and what is after. **Work that ends in a fault
disturbs nothing.** -/
inductive Effect : CodeBase → Except Fault Unit → List (Class × Links) → CodeBase → Prop where
  | quiet {before after : CodeBase} (same : Undisturbed before after) (ended : Except Fault Unit) :
      Effect before ended [] after
  | register {before after : CodeBase} {c : Class} (accepted : before.register c = .ok after) :
      Effect before (.ok ()) [(c, (before.info c).links)] after
  | addStmt {before middle after : CodeBase} {m : Method} {draft : Draft} {refined : Bool}
      (same : Undisturbed before middle) (accepted : middle.addStmt m draft refined = .ok after) :
      Effect before (.ok ()) [] after
  | declareMethod {before middle : CodeBase} (same : Undisturbed before middle) (owner : Class)
      (name : String) (paramTypes : List Ty) (paramNames : Option (List String)) (returns : Ty)
      (isStatic isAbstract : Bool) :
      Effect before (.ok ()) []
        (middle.declareMethod owner name paramTypes paramNames returns isStatic isAbstract).2

namespace Effect

variable {before middle after : CodeBase} {ended : Except Fault Unit} {added : List (Class × Links)}

theorem prepend (same : Undisturbed before middle) (effect : Effect middle ended [] after) :
    Effect before ended [] after := by
  cases effect with
  | quiet same' => exact .quiet (same.trans same') ended
  | addStmt same' accepted => exact .addStmt (same.trans same') accepted
  | declareMethod same' => exact .declareMethod (same.trans same') ..

theorem undisturbed {f : Fault} (effect : Effect before (.error f) added after) :
    Undisturbed before after := by
  cases effect with
  | quiet same => exact same

theorem declared (effect : Effect before ended added after) (known : before.Declared) :
    after.Declared := by
  cases effect with
  | quiet same => exact same.declared known
  | register accepted => exact known.register accepted
  | addStmt same accepted => exact (same.declared known).addStmt accepted
  | declareMethod same => exact (same.declared known).declareMethod ..

/-- The hierarchy is filled with what is registered. -/
theorem filled {records : List (Class × Links)} (effect : Effect before ended added after)
    (known : before.hierarchy.Filled records) : after.hierarchy.Filled (records ++ added) := by
  cases effect with
  | quiet same =>
    rw [same.hierarchy, List.append_nil]
    exact known
  | register accepted =>
    obtain ⟨hierarchy, registered, rfl⟩ := exists_of_map_ok accepted
    exact known.register registered
  | addStmt same accepted =>
    obtain ⟨op, -, rfl⟩ := exists_of_map_ok accepted
    rw [List.append_nil]
    exact same.hierarchy ▸ known
  | declareMethod same =>
    rw [List.append_nil]
    exact same.hierarchy ▸ known

end Effect

end CodeBase

namespace Assemble

open CodeBase (Effect Undisturbed)

/-- Work that registers no class. -/
def Acts (work : Assemble Unit) : Prop := ∀ a, Effect a.code (work.outcome a) [] (work.after a).code

theorem Keeps.acts {work : Assemble Unit} (keeps : Keeps work) : Acts work :=
  fun a => .quiet (keeps a) _

/-- What comes before may fail too, as long as it disturbs nothing. -/
theorem Keeps.bind_acts {α : Type} {work : Assemble α} {next : α → Assemble Unit}
    (keeps : Keeps work) (acts : ∀ x, Acts (next x)) : Acts (work >>= next) := by
  intro a
  rw [outcome_bind, after_bind]
  cases work.outcome a with
  | ok x => exact (acts x _).prepend (keeps a)
  | error f => exact .quiet (keeps a) _

/-- Changes the code, unless the change is refused. -/
def change (f : CodeBase → Except Fault CodeBase) : Assemble Unit := do commit (f (← get).code)

section Changes

variable (f : CodeBase → Except Fault CodeBase) {a : Assembly}

theorem run_change : (change f).run.run a = (commit (f a.code)).run.run a := rfl

theorem run_change_ok {code : CodeBase} (accepted : f a.code = .ok code) :
    (change f).outcome a = .ok () ∧ (change f).after a = { a with code := code } := by
  rw [outcome, after, run_change, accepted]
  exact ⟨rfl, rfl⟩

theorem run_change_error {e : Fault} (refused : f a.code = .error e) :
    (change f).outcome a = .error e ∧ (change f).after a = a := by
  rw [outcome, after, run_change, refused]
  exact ⟨rfl, rfl⟩

end Changes

theorem acts_construct (m : Method) (draft : Draft) (refined : Bool) :
    Acts (change fun code => code.addStmt m draft refined) := by
  intro a
  cases result : a.code.addStmt m draft refined with
  | ok code =>
    obtain ⟨ended, left⟩ := run_change_ok (fun code => code.addStmt m draft refined) result
    rw [ended, left]
    exact .addStmt (.refl a.code) result
  | error f =>
    obtain ⟨-, left⟩ := run_change_error (fun code => code.addStmt m draft refined) result
    rw [left]
    exact .quiet (.refl a.code) _

/-- A statement is looked up first and then added. -/
theorem acts_addStmt (m : Method) (e : StmtExpr) : Acts (addStmt m e) :=
  (keeps_draft m e).bind_acts fun d => acts_construct m d.1 d.2

theorem acts_declareMethod (d : MethodDecl) : Acts (declareMethod d) := by
  refine (keeps_resolve _ d.owner).bind_acts fun owner =>
    (keeps_mapM keeps_type d.params).bind_acts fun params =>
    (keeps_type d.returns).bind_acts fun returns => ?_
  intro a
  exact .declareMethod (.refl a.code) owner d.name params d.paramNames returns d.isStatic
    d.isAbstract

theorem keeps_declareClass (d : ClassDecl) : Keeps (declareClass d) := by
  refine keeps_get.bind fun known =>
    (keeps_mapM (keeps_resolve _) d.interfaces).bind fun interfaces =>
    Keeps.bind (keeps_modifyGet fun a => ?_) fun c => keeps_pure _
  exact ⟨rfl, fun _ => rfl, fun known => known.declareClass ..⟩

theorem keeps_declareField (d : FieldDecl) : Keeps (declareField d) := by
  refine (keeps_resolve _ d.owner).bind fun owner => (keeps_type d.type).bind fun type =>
    keeps_modifyGet fun a => ?_
  exact ⟨rfl, fun _ => rfl, fun known => known.declareField ..⟩

theorem keeps_setSuper (c : Class) (above : Option Class) :
    Keeps (modify fun a => { a with code := a.code.setSuper c above } : Assemble Unit) :=
  keeps_modifyGet fun _ => ⟨rfl, fun _ => rfl, fun known => known.setSuper c above⟩

end Assemble

/-! ### Steps -/

/-- A step in the construction of a program. -/
inductive Step where
  | declareClass (d : ClassDecl)
  | setSuper (c : Class) (above : Option Class)
  | register (c : Class)
  | declareField (d : FieldDecl)
  | declareMethod (d : MethodDecl)
  | declareVar (m : Method) (name : String) (type : Ty)
  /-- Adds a statement whose operands are at hand. -/
  | construct (m : Method) (draft : Draft) (refined : Bool)
  /-- Adds a statement whose operands have to be looked up, and declares the variables among them
  that are new. -/
  | write (m : Method) (e : StmtExpr)

namespace Step

def work : Step → Assemble Unit
  | declareClass d => discard (Assemble.declareClass d)
  | setSuper c above => modify fun a => { a with code := a.code.setSuper c above }
  | register c => Assemble.change fun code => code.register c
  | declareField d => Assemble.declareField d
  | declareMethod d => Assemble.declareMethod d
  | declareVar m name type => discard (Assemble.varNamed m name type)
  | construct m draft refined => Assemble.change fun code => code.addStmt m draft refined
  | write m e => Assemble.addStmt m e

/-- The class that a step registers, if it is accepted, with the links that the class has then. -/
def registered (a : Assembly) (s : Step) : List (Class × Links) :=
  match s with
  | register c =>
    match (register c).work.outcome a with
    | .ok _ => [(c, (a.code.info c).links)]
    | .error _ => []
  | _ => []

/-- **What a step does to the code**, one case for every kind of step. -/
theorem effect (s : Step) (a : Assembly) :
    CodeBase.Effect a.code (s.work.outcome a) (s.registered a) (s.work.after a).code := by
  cases s with
  | declareClass d => exact ((Assemble.keeps_declareClass d).map _).acts a
  | setSuper c above => exact (Assemble.keeps_setSuper c above).acts a
  | register c =>
    cases result : a.code.register c with
    | ok code =>
      obtain ⟨ended, left⟩ := Assemble.run_change_ok (fun code => code.register c) result
      rw [registered, work, ended, left]
      exact .register result
    | error f =>
      obtain ⟨ended, left⟩ := Assemble.run_change_error (fun code => code.register c) result
      rw [registered, work, ended, left]
      exact .quiet (.refl a.code) _
  | declareField d => exact (Assemble.keeps_declareField d).acts a
  | declareMethod d => exact Assemble.acts_declareMethod d a
  | declareVar m name type => exact ((Assemble.keeps_varNamed m name type).map _).acts a
  | construct m draft refined => exact Assemble.acts_construct m draft refined a
  | write m e => exact Assemble.acts_addStmt m e a

/-- A class is refused if and only if its name is taken. -/
theorem outcome_register (c : Class) (a : Assembly) : (register c).work.outcome a =
    if c.name ∈ a.code.hierarchy.classes.keys then .error (.classDefinedTwice c.name)
    else .ok () := by
  by_cases taken : c.name ∈ a.code.hierarchy.classes.keys
  · have refused : a.code.register c = .error (.classDefinedTwice c.name) := by
      rw [CodeBase.register, Hierarchy.register_eq_error taken]
      rfl
    rw [if_pos taken]
    exact (Assemble.run_change_error _ refused).1
  · obtain ⟨hierarchy, registered⟩ := Hierarchy.register_eq_ok taken (a.code.info c).links
    have accepted : a.code.register c = .ok { a.code with hierarchy := hierarchy } := by
      rw [CodeBase.register, registered]
      rfl
    rw [if_neg taken]
    exact (Assemble.run_change_ok _ accepted).1

theorem outcome_construct (m : Method) (draft : Draft) (refined : Bool) (a : Assembly) :
    (construct m draft refined).work.outcome a = .ok () ↔
      ∃ op : Op, draft = op.written ∧ op.WellFormed := by
  simp only [← Draft.check_eq_ok_iff (m := m)]
  cases checked : draft.check m with
  | ok op =>
    have accepted : a.code.addStmt m draft refined = .ok (a.code.append m op refined) := by
      rw [CodeBase.addStmt, checked]
      rfl
    exact iff_of_true (Assemble.run_change_ok _ accepted).1 ⟨op, rfl⟩
  | error f =>
    have refused : a.code.addStmt m draft refined = .error f := by
      rw [CodeBase.addStmt, checked]
      rfl
    refine iff_of_false ?_ fun ⟨op, ok⟩ => nomatch ok
    intro ok
    exact nomatch (Assemble.run_change_error _ refused).1.symm.trans ok

/-- A well-formed operation comes to stand last in its method. -/
theorem stmts_construct {op : Op} (fits : op.WellFormed) (m : Method) (refined : Bool)
    (a : Assembly) (n : Method) :
    (((construct m op.written refined).work.after a).code.body n).stmts =
      if n = m then (a.code.body n).stmts ++ [⟨⟨(a.code.body n).stmts.length, n⟩, op, refined⟩]
      else (a.code.body n).stmts := by
  have checked : op.written.check m = .ok op := Draft.check_eq_ok_iff.mpr ⟨rfl, fits⟩
  have accepted : a.code.addStmt m op.written refined = .ok (a.code.append m op refined) := by
    rw [CodeBase.addStmt, checked]
    rfl
  obtain ⟨op', checked', stmts⟩ := CodeBase.stmts_addStmt accepted
  cases checked.symm.trans checked'
  have left : (construct m op.written refined).work.after a =
      { a with code := a.code.append m op refined } :=
    (Assemble.run_change_ok _ accepted).2
  rw [left]
  exact stmts n

end Step

namespace Assembly

/-- What a sequence of steps makes, whether or not they end in faults. -/
def ofSteps (steps : List Step) : Assembly := steps.foldl (fun a s => s.work.after a) {}

/-- The classes that the steps register from an assembly on, with the links that they have then. -/
def recordsFrom (a : Assembly) : List Step → List (Class × Links)
  | [] => []
  | s :: steps => s.registered a ++ recordsFrom (s.work.after a) steps

/-- The classes that a sequence of steps registers, in order. -/
def records (steps : List Step) : List (Class × Links) := recordsFrom {} steps

theorem declared_ofSteps (steps : List Step) : (ofSteps steps).code.Declared :=
  List.foldlRecOn steps _ .empty fun a known s _ => (s.effect a).declared known

theorem filled_ofSteps (steps : List Step) :
    (ofSteps steps).code.hierarchy.Filled (records steps) := by
  have run : ∀ (steps : List Step) (a : Assembly) (known : List (Class × Links)),
      a.code.hierarchy.Filled known →
      (steps.foldl (fun a s => s.work.after a) a).code.hierarchy.Filled
        (known ++ recordsFrom a steps) := by
    intro steps
    induction steps with
    | nil =>
      intro a known filled
      rw [recordsFrom, List.append_nil]
      exact filled
    | cons s steps ih =>
      intro a known filled
      have next := ih (s.work.after a) _ ((s.effect a).filled filled)
      rwa [List.append_assoc] at next
  exact run steps {} [] .empty

/-- **Programs are built atomically and keep their indices.** After any sequence of steps, of which
any may have ended in a fault:

* a step that ends in a fault changes neither the hierarchy, all its tables included, nor the
  statements of any method;
* a class is refused if and only if its name is taken, and a statement is accepted if and only if it
  writes down a well-formed operation, which then stands last in the method;
* no name is registered twice, and the registered classes are those that were accepted, in this
  order;
* below a class stand the registered classes whose superclass it was at registration; below an
  interface stand the registered interfaces and, apart from these, the other classes, once for every
  occurrence among their interfaces, all in the order of registration;
* the statement at every place of every method knows the place and the method, and its operation is
  well formed. -/
theorem construction_atomic_and_indexed (steps : List Step) :
    (∀ (s : Step) (f : Fault), s.work.outcome (ofSteps steps) = .error f →
      (s.work.after (ofSteps steps)).code.hierarchy = (ofSteps steps).code.hierarchy ∧
      ∀ m, ((s.work.after (ofSteps steps)).code.body m).stmts =
        ((ofSteps steps).code.body m).stmts) ∧
    (∀ c : Class, (Step.register c).work.outcome (ofSteps steps) =
      if c.name ∈ (ofSteps steps).code.hierarchy.registered.map Class.name
      then .error (.classDefinedTwice c.name)
      else .ok ()) ∧
    (∀ (m : Method) (draft : Draft) (refined : Bool),
      ((Step.construct m draft refined).work.outcome (ofSteps steps) = .ok () ↔
        ∃ op : Op, draft = op.written ∧ op.WellFormed)) ∧
    (∀ (m : Method) (op : Op) (refined : Bool), op.WellFormed →
      ∀ n, (((Step.construct m op.written refined).work.after (ofSteps steps)).code.body n).stmts =
        if n = m then ((ofSteps steps).code.body n).stmts ++
          [⟨⟨((ofSteps steps).code.body n).stmts.length, n⟩, op, refined⟩]
        else ((ofSteps steps).code.body n).stmts) ∧
    ((ofSteps steps).code.hierarchy.classes.keys =
      (ofSteps steps).code.hierarchy.registered.map Class.name ∧
      ((ofSteps steps).code.hierarchy.registered.map Class.name).Nodup ∧
      (ofSteps steps).code.hierarchy.registered = (records steps).map Prod.fst) ∧
    (∀ c : Class, (ofSteps steps).code.hierarchy.subclassesOf c =
      (records steps).flatMap fun r => if r.2.superclass = some c then [r.1] else []) ∧
    (∀ i : Class, (ofSteps steps).code.hierarchy.subinterfacesOf i =
      (records steps).flatMap fun r =>
        if r.1.isInterface then List.replicate (r.2.interfaces.count i) r.1 else []) ∧
    (∀ i : Class, (ofSteps steps).code.hierarchy.implementorsOf i =
      (records steps).flatMap fun r =>
        if r.1.isInterface then [] else List.replicate (r.2.interfaces.count i) r.1) ∧
    (∀ (m : Method) (j : Nat) (s : Stmt), ((ofSteps steps).code.body m).stmts[j]? = some s →
      s.index = j ∧ s.method = m ∧ s.op.WellFormed) := by
  have filled := filled_ofSteps steps
  have declared := declared_ofSteps steps
  have names : (ofSteps steps).code.hierarchy.classes.keys =
      (ofSteps steps).code.hierarchy.registered.map Class.name := by
    rw [filled.keys_eq, filled.registered_eq, List.map_map]
    rfl
  refine ⟨?_, ?_, ?_, ?_, ⟨names, names ▸ filled.nodup_keys, filled.registered_eq⟩,
    filled.subclassesOf_eq, filled.subinterfacesOf_eq, filled.implementorsOf_eq, ?_⟩
  · intro s f ended
    have effect := s.effect (ofSteps steps)
    rw [ended] at effect
    exact ⟨effect.undisturbed.hierarchy, effect.undisturbed.stmts⟩
  · intro c
    rw [← names]
    exact Step.outcome_register c (ofSteps steps)
  · intro m draft refined
    exact Step.outcome_construct m draft refined (ofSteps steps)
  · intro m op refined fits n
    exact Step.stmts_construct fits m refined (ofSteps steps) n
  · intro m j s hs
    obtain ⟨site, draft, checked⟩ := declared.accepted_of_getElem? hs
    exact ⟨congrArg Site.index site, congrArg Site.method site,
      (Draft.check_eq_ok_iff.mp checked).2⟩

/-! ### A drawing

`Disc` names the interface `Shape` twice. Its superclass is taken away after it was registered,
another class of the same name is refused, and so are a read of an object's field without a base
variable and a call that names no method. -/

namespace Drawing

def shape : Class := ⟨0, "Shape", true, true⟩

def figure : Class := ⟨1, "Figure", false, false⟩

def round : Class := ⟨2, "Round", true, true⟩

def disc : Class := ⟨3, "Disc", false, false⟩

def copy : Class := ⟨4, "Disc", false, false⟩

def radius : Field := ⟨0, "radius", disc, .unknown, false⟩

def grow : Method := ⟨0, "grow", disc, [], [], .unknown, false, false⟩

/-- A read of the radius of no object. -/
def baseless : Step := .write grow (.loadField (some (.own "x")) none "radius")

def steps : List Step :=
  [.declareClass { id := "Shape", name := "Shape", isInterface := true },
    .declareClass { id := "Figure", name := "Figure" },
    .declareClass { id := "Round", name := "Round", interfaces := ["Shape"], isInterface := true },
    .declareClass { id := "Disc", name := "Disc", superclass := some "Figure",
                    interfaces := ["Shape", "Round", "Shape"] },
    .declareClass { id := "Copy", name := "Disc", superclass := some "Figure" },
    .register shape, .register round, .register disc, .register copy, .register figure,
    .setSuper disc none,
    .declareField { id := "radius", owner := "Disc", name := "radius" },
    .declareMethod { id := "grow", owner := "Disc", name := "grow", returns := .unknown },
    baseless, .write grow (.loadField (some (.own "x")) (some (.own "@this")) "radius"),
    .construct grow (.call .virtual none none [] none) false, .write grow .nop]

end Drawing

/-- Another read without base variable is refused and adds no statement, the tables have `Disc`
where it was registered, and the statements that were accepted are numbered. -/
theorem construction_atomic_and_indexed_drawing :
    Drawing.baseless.work.outcome (ofSteps Drawing.steps) = .error (.loadBase Drawing.radius) ∧
    (∀ m, ((Drawing.baseless.work.after (ofSteps Drawing.steps)).code.body m).stmts =
      ((ofSteps Drawing.steps).code.body m).stmts) ∧
    (Step.register Drawing.copy).work.outcome (ofSteps Drawing.steps) =
      .error (.classDefinedTwice "Disc") ∧
    (ofSteps Drawing.steps).code.hierarchy.registered =
      [Drawing.shape, Drawing.round, Drawing.disc, Drawing.figure] ∧
    (ofSteps Drawing.steps).code.superOf Drawing.disc = none ∧
    (ofSteps Drawing.steps).code.hierarchy.subclassesOf Drawing.figure = [Drawing.disc] ∧
    (ofSteps Drawing.steps).code.hierarchy.subinterfacesOf Drawing.shape = [Drawing.round] ∧
    (ofSteps Drawing.steps).code.hierarchy.implementorsOf Drawing.shape =
      [Drawing.disc, Drawing.disc] ∧
    (∃ s, ((ofSteps Drawing.steps).code.body Drawing.grow).stmts[1]? = some s ∧ s.op = .nop ∧
      s.index = 1 ∧ s.method = Drawing.grow) := by
  obtain ⟨atomic, register, -, -, -, below, subinterfaces, implementors, stmts⟩ :=
    construction_atomic_and_indexed Drawing.steps
  have records : records Drawing.steps =
      [(Drawing.shape, {}), (Drawing.round, { interfaces := [Drawing.shape] }),
        (Drawing.disc, ⟨some Drawing.figure, [Drawing.shape, Drawing.round, Drawing.shape]⟩),
        (Drawing.figure, {})] := by
    decide +kernel
  have refused : Drawing.baseless.work.outcome (ofSteps Drawing.steps) =
      .error (.loadBase Drawing.radius) := by decide +kernel
  have second : ((ofSteps Drawing.steps).code.body Drawing.grow).stmts[1]? =
      some ⟨⟨1, Drawing.grow⟩, .nop, false⟩ := by decide +kernel
  obtain ⟨index, method, -⟩ := stmts _ _ _ second
  refine ⟨refused, (atomic _ _ refused).2, ?_, by decide +kernel, by decide +kernel, ?_, ?_, ?_,
    _, second, rfl, index, method⟩
  · rw [register]
    exact if_pos (by decide +kernel)
  · rw [below, records]
    decide +kernel
  · rw [subinterfaces, records]
    decide +kernel
  · rw [implementors, records]
    decide +kernel

end Assembly

end StaticAnalysis
