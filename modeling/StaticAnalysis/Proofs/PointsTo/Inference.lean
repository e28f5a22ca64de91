import StaticAnalysis.PointsTo.Machine

/-!
# Inference rules of the pointer analysis

What the analysis is to find out, said without worklist and agenda: a set of facts with the rules by
which one fact follows from others.

* `Fact` — a reachable method, a call edge, a flow edge, or an object of a pointer;
  `State.Holds` says which facts a state of the machine has recorded.
* `Gives` — what a statement gives as soon as its method is reachable.
* `Stmt.awaited?` and `GivesOn` — the operand whose objects a statement waits for, and what the
  statement gives on each of them.
* `Wires` — the flow of arguments and results along a call edge.
* `Infers` — one inference, from a list of premises to a conclusion.
* `Closed` — a set of facts that no inference leads out of; `Derivable` — the facts that have a
  finite derivation.

**Main statement**: the derivable facts are the least closed set (`closed_derivable`,
`Derivable.mem_of_closed`).
-/

namespace StaticAnalysis

/-- The operand whose objects a statement waits for: the base of an access to members or elements
through which objects can flow, and the receiver of a call that needs one. -/
def Stmt.awaited? (s : Stmt) : Option Operand :=
  match s.op with
  | .loadField _ base field | .storeField base field _ =>
    if field.type.isReference && !field.isStatic then some base else none
  | .loadElement target base => if target.any Var.isReference then some base else none
  | .storeElement base source => if source.any Var.isReference then some base else none
  | .call call => if call.kind.needsReceiver then some call.receiver else none
  | _ => none

namespace PointsTo

/-- What the analysis can find out. -/
inductive Fact where
  /-- A method is reachable under a context. -/
  | reached (m : CtxMethod)
  /-- A call site calls a method. -/
  | called (e : CtxEdge)
  /-- What `source` points to flows into `target`. -/
  | flows (source target : Pointer)
  /-- A pointer may point to an object. -/
  | pointsTo (p : Pointer) (o : HeapObj)
deriving DecidableEq

/-- The facts that a state has recorded. -/
def State.Holds (st : State) : Fact → Prop
  | .reached m => m ∈ st.graph.reachable
  | .called e => e ∈ st.graph.edges
  | .flows p q => q ∈ st.successors p
  | .pointsTo p o => o ∈ st.objectsOf p

instance State.decidableHolds (st : State) : DecidablePred st.Holds
  | .reached _ => inferInstanceAs (Decidable (_ ∈ st.graph.reachable))
  | .called _ => inferInstanceAs (Decidable (_ ∈ st.graph.edges))
  | .flows p _ => inferInstanceAs (Decidable (_ ∈ st.successors p))
  | .pointsTo p _ => inferInstanceAs (Decidable (_ ∈ st.objectsOf p))

namespace Rules

variable (rules : Rules)

/-! ### What statements and calls give -/

/-- What a statement gives as soon as its method is reachable. -/
inductive Gives (s : CtxStmt) : Fact → Prop where
  /-- `x = new T`: the variable points to the new object. -/
  | alloc {target : Operand} {type : Ty} (h : s.2.op = .alloc target type) :
      Gives s (.pointsTo (.var s.1 target)
        ⟨rules.selector.heapContext s.1, ⟨s.2.site, target, type⟩⟩)
  /-- `x = y`, where objects can flow into `x`. -/
  | copy {target : Var} {source : Operand} (h : s.2.op = .copy (some target) source)
      (ref : target.isReference = true) :
      Gives s (.flows (.var s.1 source) (.var s.1 (some target)))
  /-- `x = C.f`, where `f` can hold objects. -/
  | loadStatic {target : Operand} {base : Option Var} {field : Field}
      (h : s.2.op = .loadField target base field) (ref : field.type.isReference = true)
      (static : field.isStatic = true) :
      Gives s (.flows (.static field) (.var s.1 target))
  /-- `C.f = y`, where `f` can hold objects. -/
  | storeStatic {base : Option Var} {field : Field} {source : Operand}
      (h : s.2.op = .storeField base field source) (ref : field.type.isReference = true)
      (static : field.isStatic = true) :
      Gives s (.flows (.var s.1 source) (.static field))
  /-- A static call with a target. -/
  | call {call : Call} {callee : Method} {context : Context} (h : s.2.op = .call call)
      (static : call.kind = .static)
      (target : rules.code.resolveCallee .unknown call = some callee)
      (chosen : rules.selector.calleeContext s.1 s.2 none = some context) :
      Gives s (.called ⟨call.kind, s, (context, callee)⟩)

/-- What a waiting statement gives on an object of the operand that it waits for. -/
inductive GivesOn (s : CtxStmt) (o : HeapObj) : Fact → Prop where
  /-- `x = o.f` -/
  | load {target : Operand} {base : Option Var} {field : Field}
      (h : s.2.op = .loadField target base field) :
      GivesOn s o (.flows (.member o field) (.var s.1 target))
  /-- `o.f = y` -/
  | store {base : Option Var} {field : Field} {source : Operand}
      (h : s.2.op = .storeField base field source) :
      GivesOn s o (.flows (.var s.1 source) (.member o field))
  /-- `x = o[*]` -/
  | loadElement {target base : Operand} (h : s.2.op = .loadElement target base) :
      GivesOn s o (.flows (.element o) (.var s.1 target))
  /-- `o[*] = y` -/
  | storeElement {base source : Operand} (h : s.2.op = .storeElement base source) :
      GivesOn s o (.flows (.var s.1 source) (.element o))
  /-- A call that has a target on the object. -/
  | call {call : Call} {callee : Method} {context : Context} (h : s.2.op = .call call)
      (target : rules.code.resolveCallee o.alloc.type call = some callee)
      (chosen : rules.selector.calleeContext s.1 s.2 (some o) = some context) :
      GivesOn s o (.called ⟨call.kind, s, (context, callee)⟩)
  /-- The object is the receiver in the callee. -/
  | receiver {call : Call} {callee : Method} {context : Context} {v : Var}
      (h : s.2.op = .call call)
      (target : rules.code.resolveCallee o.alloc.type call = some callee)
      (chosen : rules.selector.calleeContext s.1 s.2 (some o) = some context)
      (this : callee.this? = some v) :
      GivesOn s o (.pointsTo (.var context (some v)) o)

/-- The flow of arguments and results along a call edge. -/
inductive Wires (e : CtxEdge) : Fact → Prop where
  /-- An argument flows into the parameter at its place. -/
  | argument {call : Call} {a : Operand} {p : Var} (h : e.site.2.op = .call call)
      (pair : (a, p) ∈ call.args.zip e.callee.2.params) (ref : p.isReference = true) :
      Wires e (.flows (.var e.site.1 a) (.var e.callee.1 (some p)))
  /-- What the callee returns flows into the result of the call. -/
  | result {call : Call} {r v : Var} (h : e.site.2.op = .call call)
      (result : call.result = some r) (ref : r.isReference = true)
      (returned : v ∈ (rules.code.body e.callee.2).returnVars) :
      Wires e (.flows (.var e.callee.1 (some v)) (.var e.site.1 (some r)))

/-! ### Inferences -/

/-- One inference of the analysis that starts at the given entries. -/
inductive Infers (entries : List Method) : List Fact → Fact → Prop where
  /-- Entries are reachable under the empty context. -/
  | entry {m : Method} (h : m ∈ entries) : Infers entries [] (.reached ([], m))
  /-- The statements of reachable methods. -/
  | stmt {m : CtxMethod} {s : Stmt} {f : Fact} (mem : s ∈ (rules.code.body m.2).stmts)
      (h : rules.Gives (m.1, s) f) : Infers entries [.reached m] f
  /-- The statements of reachable methods that wait for objects. -/
  | onObject {m : CtxMethod} {s : Stmt} {v : Operand} {o : HeapObj} {f : Fact}
      (mem : s ∈ (rules.code.body m.2).stmts) (awaits : s.awaited? = some v)
      (h : rules.GivesOn (m.1, s) o f) :
      Infers entries [.reached m, .pointsTo (.var m.1 v) o] f
  /-- A called method is reachable. -/
  | callee {e : CtxEdge} : Infers entries [.called e] (.reached e.callee)
  /-- Arguments and results. -/
  | wiring {e : CtxEdge} {f : Fact} (h : rules.Wires e f) : Infers entries [.called e] f
  /-- Objects follow the flow edges. -/
  | flow {p q : Pointer} {o : HeapObj} :
      Infers entries [.flows p q, .pointsTo p o] (.pointsTo q o)

/-- A set of facts that contains whatever can be inferred from it. -/
def Closed (entries : List Method) (known : Fact → Prop) : Prop :=
  ∀ (premises : List Fact) (f : Fact), rules.Infers entries premises f →
    (∀ g ∈ premises, known g) → known f

/-- The facts that have a finite derivation. -/
inductive Derivable (entries : List Method) : Fact → Prop where
  | infer {premises : List Fact} {f : Fact} (step : rules.Infers entries premises f)
      (known : ∀ g ∈ premises, Derivable entries g) : Derivable entries f

variable {rules} {entries : List Method}

theorem closed_derivable : rules.Closed entries (rules.Derivable entries) := by
  intro premises f step known
  exact .infer step known

/-- **Leastness**: a derivable fact belongs to every closed set. -/
theorem Derivable.mem_of_closed {known : Fact → Prop} (closed : rules.Closed entries known) :
    ∀ {f : Fact}, rules.Derivable entries f → known f := by
  intro f h
  induction h with
  | infer step _ ih => exact closed _ _ step ih

/-! ### The inferences as rules for derivations -/

namespace Derivable

theorem entry {m : Method} (h : m ∈ entries) : rules.Derivable entries (.reached ([], m)) :=
  .infer (.entry h) (by simp)

theorem stmt {m : CtxMethod} {s : Stmt} {f : Fact} (hm : rules.Derivable entries (.reached m))
    (mem : s ∈ (rules.code.body m.2).stmts) (h : rules.Gives (m.1, s) f) :
    rules.Derivable entries f :=
  .infer (.stmt mem h) (by simpa using hm)

theorem onObject {m : CtxMethod} {s : Stmt} {v : Operand} {o : HeapObj} {f : Fact}
    (hm : rules.Derivable entries (.reached m)) (mem : s ∈ (rules.code.body m.2).stmts)
    (awaits : s.awaited? = some v) (ho : rules.Derivable entries (.pointsTo (.var m.1 v) o))
    (h : rules.GivesOn (m.1, s) o f) : rules.Derivable entries f :=
  .infer (.onObject mem awaits h) (by simp [hm, ho])

theorem callee {e : CtxEdge} (he : rules.Derivable entries (.called e)) :
    rules.Derivable entries (.reached e.callee) :=
  .infer .callee (by simpa using he)

theorem wiring {e : CtxEdge} {f : Fact} (he : rules.Derivable entries (.called e))
    (h : rules.Wires e f) : rules.Derivable entries f :=
  .infer (.wiring h) (by simpa using he)

theorem flow {p q : Pointer} {o : HeapObj} (hf : rules.Derivable entries (.flows p q))
    (ho : rules.Derivable entries (.pointsTo p o)) : rules.Derivable entries (.pointsTo q o) :=
  .infer (.flow (p := p)) (by simp [hf, ho])

end Derivable

end Rules

/-! ### A small program

General statements about analyses are tried out on a program with one class. Its method `main` makes
a cell, lets the cell refer to itself through a second variable, and asks the cell for its
successor:

`a = new Cell; b = a; a.next = b; c = b.follow()`, where the recursive method `follow` is
`r = this.next; s = r.follow(); return r`. -/

namespace Sample

def cell : Class := ⟨0, "Cell", false, false⟩

def next : Field := ⟨0, "next", cell, .cls cell, false⟩

def main : Method := ⟨0, "main", cell, [], [], .void, true, false⟩

def follow : Method := ⟨1, "follow", cell, [], [], .cls cell, false, false⟩

/-- A variable that holds cells. -/
def cellVar (m : Method) (name : String) : Var := ⟨name, m, .cls cell⟩

def mainStmts : List Stmt :=
  [⟨⟨0, main⟩, .alloc (cellVar main "a") (.cls cell), false⟩,
    ⟨⟨1, main⟩, .copy (cellVar main "b") (cellVar main "a"), false⟩,
    ⟨⟨2, main⟩, .storeField (cellVar main "a") next (cellVar main "b"), false⟩,
    ⟨⟨3, main⟩, .call ⟨.virtual, ⟨cell, "Cell follow()"⟩, cellVar main "b", [],
      cellVar main "c"⟩, false⟩]

def followStmts : List Stmt :=
  [⟨⟨0, follow⟩, .loadField (cellVar follow "r") (cellVar follow "@this") next, false⟩,
    ⟨⟨1, follow⟩, .call ⟨.virtual, ⟨cell, "Cell follow()"⟩, cellVar follow "r", [],
      cellVar follow "s"⟩, false⟩,
    ⟨⟨2, follow⟩, .leave (cellVar follow "r"), false⟩]

def code : CodeBase where
  classes := ⟨[(cell, { methods := ⟨[("Cell follow()", follow)]⟩ })]⟩
  fields := [next]
  bodies := ⟨[(main, { stmts := mainStmts }), (follow, { stmts := followStmts })]⟩

/-- The analysis of the program under a choice of contexts. -/
def rules (selector : Selector) : Rules := { code := code, selector := selector }

/-- The cell that `main` makes. -/
def theCell : HeapObj := ⟨[], ⟨⟨0, main⟩, cellVar main "a", .cls cell⟩⟩

end Sample

end PointsTo

end StaticAnalysis
