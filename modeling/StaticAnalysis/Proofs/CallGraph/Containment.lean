import StaticAnalysis.PointsTo.Result
import StaticAnalysis.Proofs.CallGraph.HierarchyClosure
import StaticAnalysis.Proofs.CallGraph.Resolution
import StaticAnalysis.Proofs.PointsTo.Precision
import StaticAnalysis.Proofs.PointsTo.Soundness

/-!
# The call graph of the pointer analysis is part of the one from the class hierarchy

The pointer analysis resolves a call on the type of each receiver object, the analysis of the class
hierarchy on all subtypes of the class that the call names. The first finds a method that the second
does not find only if a receiver object has a type that the hierarchy does not place below that
class.

* `CodeBase.Suits` — the type of a receiver object suits a call: the call runs nothing on it, or it
  is a recorded subtype of the class that the call names, or it is an array and that class is a
  root.
* `CodeBase.mem_resolve_of_resolveCallee` — the two resolvers agree on types that suit.
* `InGraph` — the facts of the pointer analysis that a call graph covers, contexts dropped.

**Main statement** (`callGraph_subset_build`): if the receivers suit the calls, then all reachable
methods and all call edges of the pointer analysis are in the call graph of the class hierarchy.
-/

namespace StaticAnalysis

namespace CodeBase

/-- The type of a receiver object suits a virtual or interface call, by the links of the registered
classes. -/
def Suits (code : CodeBase) (records : List (Class × Links)) (call : Call) (type : Ty) : Prop :=
  code.resolveCallee type call = none ∨
  (∃ c, type = .cls c ∧ Relation.ReflTransGen (Directly records) c call.target.owner) ∨
  ((∃ element, type = .array element) ∧ code.superOf call.target.owner = none)

variable {code : CodeBase}

theorem rootOf_of_superOf_eq_none {c : Class} (h : code.superOf c = none) : code.rootOf c = c := by
  rw [rootOf, climbLimit, summit, h]

/-- The method that a virtual or interface call runs on a type that suits is a possible target. -/
theorem mem_resolve_of_suits {records : List (Class × Links)}
    (filled : code.hierarchy.Filled records) {call : Call} {type : Ty} {m : Method}
    (kind : call.kind = .virtual ∨ call.kind = .interface) (suits : code.Suits records call type)
    (h : code.resolveCallee type call = some m) : m ∈ code.resolve call := by
  have onClass : ∀ c, code.resolveCallee (.cls c) call
      = code.dispatch c call.target.subsignature := by
    intro c
    unfold resolveCallee
    rcases kind with kind | kind <;> rw [kind]
  have onArray : ∀ element, code.resolveCallee (.array element) call
      = code.dispatch (code.rootOf call.target.owner) call.target.subsignature := by
    intro element
    unfold resolveCallee
    rcases kind with kind | kind <;> rw [kind]
  rcases suits with none | ⟨c, rfl, below⟩ | ⟨⟨element, rfl⟩, root⟩
  · rw [none] at h
    contradiction
  · rw [onClass] at h
    exact (mem_resolve kind).mpr ⟨c, (mem_subtypes filled).mpr below, h⟩
  · rw [onArray, rootOf_of_superOf_eq_none root] at h
    exact (mem_resolve kind).mpr ⟨_, (mem_subtypes filled).mpr .refl, h⟩

/-- **The two resolvers agree**: what a call runs on a receiver is a possible target, where virtual
and interface calls need a receiver that suits. -/
theorem mem_resolve_of_resolveCallee {records : List (Class × Links)}
    (filled : code.hierarchy.Filled records) {call : Call} {type : Ty} {m : Method}
    (suits : call.kind = .virtual ∨ call.kind = .interface → code.Suits records call type)
    (h : code.resolveCallee type call = some m) : m ∈ code.resolve call := by
  -- static and special calls are resolved on the named class by both
  have onOwner : call.kind = .static ∨ call.kind = .special → m ∈ code.resolve call := by
    intro kind
    unfold resolveCallee at h
    unfold resolve
    rcases kind with kind | kind <;> rw [kind] at h ⊢ <;> exact Option.mem_toList.mpr h
  cases kind : call.kind with
  | static => exact onOwner (Or.inl kind)
  | special => exact onOwner (Or.inr kind)
  | virtual => exact mem_resolve_of_suits filled (Or.inl kind) (suits (Or.inl kind)) h
  | interface => exact mem_resolve_of_suits filled (Or.inr kind) (suits (Or.inr kind)) h
  | dynamic =>
    unfold resolveCallee at h
    rw [kind] at h
    contradiction

end CodeBase

namespace PointsTo

/-- What a fact says of calls is in a call graph without contexts. -/
def InGraph (g : CallGraph Stmt Method) : Fact → Prop
  | .reached m => m.2 ∈ g.reachable
  | .called e => e.dropContexts ∈ g.edges
  | .flows _ _ => True
  | .pointsTo _ _ => True

/-- The receivers of the virtual and interface calls that an analysis has met suit the calls. -/
def State.ReceiversSuit (st : State) (code : CodeBase) (records : List (Class × Links)) : Prop :=
  ∀ m ∈ st.graph.reachable, ∀ s ∈ (code.body m.2).stmts, ∀ call, s.call? = some call →
    call.kind = .virtual ∨ call.kind = .interface →
      ∀ o ∈ st.objectsOf (.var m.1 call.receiver), code.Suits records call o.alloc.type

/-- A statement that makes a call on the objects that it waits for waits for the receiver of the
call. -/
theorem awaited_eq_receiver {s : Stmt} {call : Call} {v : Operand} (h : s.op = .call call)
    (awaits : s.awaited? = some v) : v = call.receiver := by
  rw [Stmt.awaited?, h] at awaits
  simp only at awaits
  split at awaits
  · exact (Option.some.inj awaits).symm
  · contradiction

section Calls

variable {p : Program} {rules : Rules} {records : List (Class × Links)} {g : CallGraph Stmt Method}
  {st : State} (code : rules.code = p.code) (filled : p.code.hierarchy.Filled records)
  (closed : HierarchyAnalysis.ClosedCalls p g)

include code filled closed

/-- An edge of a call in a reachable method, to a callee that a receiver that suits leads to, is in
a closed graph. -/
theorem inGraph_called {m : CtxMethod} {s : Stmt} {call : Call} {type : Ty} {callee : Method}
    {context : Context} (reached : InGraph g (.reached m)) (mem : s ∈ (rules.code.body m.2).stmts)
    (hop : s.op = .call call)
    (suits : call.kind = .virtual ∨ call.kind = .interface → p.code.Suits records call type)
    (target : rules.code.resolveCallee type call = some callee) :
    InGraph g (.called ⟨call.kind, (m.1, s), (context, callee)⟩) := by
  rw [code] at mem target
  have hcall : s.call? = some call := by rw [Stmt.call?, hop]
  have site : s ∈ (p.code.body m.2).calls :=
    List.mem_filter.mpr ⟨mem, by rw [Stmt.isCall, hcall]; rfl⟩
  refine closed.calls m.2 reached s site ?_
  rw [CodeBase.callEdges_of_call hcall]
  exact List.mem_map.mpr ⟨callee, CodeBase.mem_resolve_of_resolveCallee filled suits target, rfl⟩

/-- The facts of a state that are in a closed graph are closed under inference. -/
theorem closed_holds_inGraph (suits : st.ReceiversSuit p.code records)
    (sound : rules.Closed p.entries st.Holds) :
    rules.Closed p.entries fun f => st.Holds f ∧ InGraph g f := by
  intro premises f step known
  refine ⟨sound premises f step fun f hf => (known f hf).1, ?_⟩
  cases step with
  | entry h => exact closed.entries h
  | @stmt m s _ mem gives =>
    have reached : InGraph g (.reached m) := (known _ List.mem_cons_self).2
    cases gives with
    | alloc => trivial
    | copy => trivial
    | loadStatic => trivial
    | storeStatic => trivial
    | call hop static target _ =>
      refine inGraph_called code filled closed reached mem hop ?_ target
      rw [static]
      rintro (kind | kind) <;> contradiction
  | @onObject m s v o _ mem awaits gives =>
    have reached : st.Holds (.reached m) ∧ InGraph g (.reached m) := known _ List.mem_cons_self
    have received : st.Holds (.pointsTo (.var m.1 v) o) :=
      (known _ (List.mem_cons_of_mem _ List.mem_cons_self)).1
    cases gives with
    | load => trivial
    | store => trivial
    | loadElement => trivial
    | storeElement => trivial
    | receiver => trivial
    | @call call _ _ hop target _ =>
      refine inGraph_called code filled closed reached.2 mem hop ?_ target
      intro kind
      rw [code] at mem
      rw [awaited_eq_receiver hop awaits] at received
      exact suits m reached.1 s mem call (by rw [Stmt.call?, hop]) kind o received
  | @callee e =>
    have called : InGraph g (.called e) := (known _ List.mem_cons_self).2
    exact closed.callees _ called
  | wiring h => cases h <;> trivial
  | flow => trivial

end Calls

/-- **The call graph of the pointer analysis is part of the one from the class hierarchy.** Take a
program whose hierarchy was filled by registration, and a finished analysis under any choice of
contexts and orders. If the receiver objects of the virtual and interface calls that it has met suit
the calls, then every reachable method and every call edge, contexts dropped, is in the call graph
that is read off the hierarchy, in whatever order the targets of calls are taken. -/
theorem callGraph_subset_build (p : Program) (rules : Rules) (code : rules.code = p.code)
    (records : List (Class × Links)) (filled : p.code.hierarchy.Filled records) (n : Nat)
    (st : State) (h : rules.analyze n {} p.entries = .finished st)
    (suits : st.ReceiversSuit p.code records) (order : Arrangement Method) :
    st.callGraph.reachable ⊆ (HierarchyAnalysis.build p order).reachable ∧
    st.callGraph.edges ⊆ (HierarchyAnalysis.build p order).edges := by
  have closed := closed_holds_inGraph code filled (HierarchyAnalysis.closed_build p order) suits
    (closed_of_finished h)
  have covered : ∀ f, st.Holds f → InGraph (HierarchyAnalysis.build p order) f :=
    fun f hf => ((derivable_of_finished h hf).mem_of_closed closed).2
  refine ⟨?_, ?_⟩
  · intro m hm
    obtain ⟨c, hc⟩ := st.graph.mem_reachable_dropContexts.mp hm
    exact covered (.reached (c, m)) hc
  · intro e he
    obtain ⟨e', he', rfl⟩ := st.graph.mem_edges_dropContexts.mp he
    exact covered (.called e') he'

/-! ### A program with an interface and an array

`x = new Circle; x.area(); y = new Circle[]; y.hash()`, where the first call goes through the
interface `Shape` and the second names the root `Thing`. -/

namespace Shapes

def thing : Class := ⟨0, "Thing", false, false⟩

def shape : Class := ⟨1, "Shape", true, true⟩

def circle : Class := ⟨2, "Circle", false, false⟩

def main : Method := ⟨0, "main", thing, [], [], .void, true, false⟩

def hash : Method := ⟨1, "hash", thing, [], [], .void, false, false⟩

def area : Method := ⟨2, "area", circle, [], [], .void, false, false⟩

def x : Var := ⟨"x", main, .unknown⟩

def y : Var := ⟨"y", main, .unknown⟩

def mainStmts : List Stmt :=
  [⟨⟨0, main⟩, .alloc x (.cls circle), false⟩,
    ⟨⟨1, main⟩, .call ⟨.interface, ⟨shape, "void area()"⟩, x, [], none⟩, false⟩,
    ⟨⟨2, main⟩, .alloc y (.array (.cls circle)), false⟩,
    ⟨⟨3, main⟩, .call ⟨.virtual, ⟨thing, "void hash()"⟩, y, [], none⟩, false⟩]

/-- The classes with their links, in the order of registration. -/
def records : List (Class × Links) :=
  [(thing, {}), (shape, {}), (circle, { superclass := thing, interfaces := [shape] })]

def hierarchy : Hierarchy where
  classes := ⟨[("Thing", thing), ("Shape", shape), ("Circle", circle)]⟩
  subclasses := ⟨[(thing, [circle])]⟩
  implementors := ⟨[(shape, [circle])]⟩

def code : CodeBase where
  classes := ⟨[(thing, { methods := ⟨[("void main()", main), ("void hash()", hash)]⟩ }),
    (shape, {}),
    (circle, { links := { superclass := thing, interfaces := [shape] },
               methods := ⟨[("void area()", area)]⟩ })]⟩
  bodies := ⟨[(main, { stmts := mainStmts }), (hash, {}), (area, {})]⟩
  hierarchy := hierarchy

def program : Program := ⟨code, [main]⟩

def rules : Rules := { code := code, selector := .objectChain 1 }

/-- The state in which the analysis of the program ends. -/
def result : State :=
  match rules.analyze 40 {} [main] with
  | .finished st => st
  | _ => {}

theorem finished : rules.analyze 40 {} [main] = .finished result := by
  obtain ⟨st, h⟩ : ∃ st, rules.analyze 40 {} [main] = .finished st := ⟨_, rfl⟩
  have same : result = st := by rw [result, h]
  rw [same]
  exact h

theorem filled : hierarchy.Filled records :=
  .register (.register (.register .empty rfl) rfl) rfl

end Shapes

/-- Both calls of the program run a method on their receivers, and the analysis of the hierarchy
finds both. -/
theorem callGraph_subset_build_shapes :
    Shapes.rules.analyze 40 {} [Shapes.main] = .finished Shapes.result ∧
    Shapes.result.callGraph.edges.length = 2 ∧
    Shapes.result.callGraph.reachable ⊆
      (HierarchyAnalysis.build Shapes.program .asListed).reachable ∧
    Shapes.result.callGraph.edges ⊆ (HierarchyAnalysis.build Shapes.program .asListed).edges := by
  have receivers : ∀ m ∈ Shapes.result.graph.reachable, ∀ s ∈ (Shapes.code.body m.2).stmts,
      ∀ call ∈ s.call?.toList, ∀ o ∈ Shapes.result.objectsOf (.var m.1 call.receiver),
        (o.alloc.type, call.target.owner) ∈
          [(Ty.cls Shapes.circle, Shapes.shape), (.array (.cls Shapes.circle), Shapes.thing)] := by
    decide +kernel
  have step : Directly Shapes.records Shapes.circle Shapes.shape :=
    ⟨{ superclass := Shapes.thing, interfaces := [Shapes.shape] }, by decide, by decide⟩
  refine ⟨Shapes.finished, by decide +kernel, ?_⟩
  refine callGraph_subset_build Shapes.program Shapes.rules rfl Shapes.records Shapes.filled 40 _
    Shapes.finished ?_ .asListed
  intro m hm s hs call hcall _ o ho
  have pair := receivers m hm s hs call (Option.mem_toList.mpr hcall) o ho
  simp only [List.mem_cons, Prod.mk.injEq, List.not_mem_nil, or_false] at pair
  rcases pair with ⟨type, owner⟩ | ⟨type, owner⟩
  · exact Or.inr (Or.inl ⟨_, type, owner ▸ .single step⟩)
  · refine Or.inr (Or.inr ⟨⟨_, type⟩, ?_⟩)
    rw [owner]
    rfl

end PointsTo

end StaticAnalysis
