import StaticAnalysis.Proofs.CallGraph.Subtypes

/-!
# The possible targets of a call

A virtual or interface call may run the method of any subtype of the class that it names. Which
classes these are is read off the tables of the hierarchy, by a search that goes downward; here it
is said by the links of the classes, which go upward.

* `CodeBase.DirectSubtype` — one step upward from a registered class, by the links that the class
  has.
* `CodeBase.mem_resolve` — the targets of a virtual or interface call are what the subtypes run.

**Main statement** (`resolve_eq_subtype_closure`): the search ends, and the targets are exactly the
methods that the named class and the classes below it run. Links may form cycles, name classes that
are not registered or contradict each other.
-/

namespace StaticAnalysis

namespace CodeBase

/-- A step from a registered class to one directly above it: to an interface that it names, or to
its superclass, if that is no interface. -/
def DirectSubtype (code : CodeBase) (c above : Class) : Prop :=
  c ∈ code.hierarchy.registered ∧
    if above.isInterface then above ∈ (code.info c).links.interfaces
    else code.superOf c = some above

section Targets

variable {code : CodeBase} {records : List (Class × Links)}

/-- If classes still have the links with which they were registered, then the record and the classes
agree. -/
theorem directly_iff (filled : code.hierarchy.Filled records)
    (kept : ∀ r ∈ records, (code.info r.1).links = r.2) {c above : Class} :
    Directly records c above ↔ code.DirectSubtype c above := by
  unfold Directly DirectSubtype superOf
  rw [filled.registered_eq]
  constructor
  · rintro ⟨links, mem, step⟩
    rw [kept _ mem]
    exact ⟨List.mem_map.mpr ⟨_, mem, rfl⟩, step⟩
  · rintro ⟨named, step⟩
    obtain ⟨⟨d, links⟩, mem, rfl⟩ := List.mem_map.mp named
    rw [kept _ mem] at step
    exact ⟨links, mem, step⟩

theorem resolve_of_receiver {call : Call} (kind : call.kind = .virtual ∨ call.kind = .interface) :
    code.resolve call = distinct ((code.subtypes call.target.owner).filterMap fun c =>
      code.dispatch c call.target.subsignature) := by
  unfold resolve
  rcases kind with kind | kind <;> rw [kind]

/-- **The targets of a virtual or interface call** are the methods that the subtypes of the named
class run. -/
theorem mem_resolve {call : Call} (kind : call.kind = .virtual ∨ call.kind = .interface)
    {m : Method} :
    m ∈ code.resolve call ↔
      ∃ c ∈ code.subtypes call.target.owner, code.dispatch c call.target.subsignature = some m := by
  rw [resolve_of_receiver kind, mem_distinct, List.mem_filterMap]

end Targets

/-- **The possible targets of a call are the methods of the subtype closure.** Take any classes with
any links, of which some were registered and none has changed its links since. For a virtual or
interface call:

* the search through the hierarchy comes to an end, and the targets are what the classes that it
  finds run;
* no target is listed twice;
* a method is a target if and only if it is what some class runs for the subsignature of the call,
  where this class is the one that the call names or leads to it by direct steps upward from
  registered classes. -/
theorem resolve_eq_subtype_closure (code : CodeBase) (records : List (Class × Links))
    (filled : code.hierarchy.Filled records) (kept : ∀ r ∈ records, (code.info r.1).links = r.2)
    (call : Call) (kind : call.kind = .virtual ∨ call.kind = .interface) :
    (∃ found, Searches code.hierarchy.below [call.target.owner] [call.target.owner] found ∧
      code.resolve call =
        distinct (found.filterMap fun c => code.dispatch c call.target.subsignature)) ∧
    (code.resolve call).Nodup ∧
    ∀ m, m ∈ code.resolve call ↔
      ∃ c, Relation.ReflTransGen code.DirectSubtype c call.target.owner ∧
        code.dispatch c call.target.subsignature = some m := by
  have step : Directly records = code.DirectSubtype := by
    funext c above
    exact propext (directly_iff filled kept)
  refine ⟨⟨_, code.searches_subtypes _, resolve_of_receiver kind⟩, ?_, ?_⟩
  · rw [resolve_of_receiver kind]
    exact nodup_distinct _
  · intro m
    simp only [mem_resolve kind, mem_subtypes filled, step]

/-! ### A knot of classes

`Plate` and `Disk` are each other's superclasses, and `Disk` is below `Shape` both directly and
through `Round`. `Coin` is below `Blank`, which is below `Plate` but is not registered. -/

namespace Knot

def shape : Class := ⟨0, "Shape", true, true⟩

def round : Class := ⟨1, "Round", true, true⟩

def plate : Class := ⟨2, "Plate", false, false⟩

def disk : Class := ⟨3, "Disk", false, false⟩

def blank : Class := ⟨4, "Blank", false, false⟩

def coin : Class := ⟨5, "Coin", false, false⟩

def roundArea : Method := ⟨0, "area", round, [], [], .void, false, true⟩

def plateArea : Method := ⟨1, "area", plate, [], [], .void, false, false⟩

def coinArea : Method := ⟨2, "area", coin, [], [], .void, false, false⟩

/-- The registered classes with their links. -/
def records : List (Class × Links) :=
  [(shape, {}), (round, { interfaces := [shape] }), (plate, { superclass := disk }),
    (disk, { superclass := plate, interfaces := [round, shape] }), (coin, { superclass := blank })]

def hierarchy : Hierarchy where
  classes :=
    ⟨[("Shape", shape), ("Round", round), ("Plate", plate), ("Disk", disk), ("Coin", coin)]⟩
  subclasses := ⟨[(disk, [plate]), (plate, [disk]), (blank, [coin])]⟩
  subinterfaces := ⟨[(shape, [round])]⟩
  implementors := ⟨[(round, [disk]), (shape, [disk])]⟩

def code : CodeBase where
  classes := ⟨[(shape, {}),
    (round, { links := { interfaces := [shape] }, methods := ⟨[("void area()", roundArea)]⟩ }),
    (plate, { links := { superclass := disk }, methods := ⟨[("void area()", plateArea)]⟩ }),
    (disk, { links := { superclass := plate, interfaces := [round, shape] } }),
    (blank, { links := { superclass := plate } }),
    (coin, { links := { superclass := blank }, methods := ⟨[("void area()", coinArea)]⟩ })]⟩
  hierarchy := hierarchy

theorem filled : code.hierarchy.Filled records :=
  .register (.register (.register (.register (.register .empty rfl) rfl) rfl) rfl) rfl

/-- A call of `area` on a shape. -/
def call : Call := ⟨.interface, ⟨shape, "void area()"⟩, none, [], none⟩

end Knot

/-- Through the knot the call has one target. The method of `Coin` is none, although `Coin` inherits
from `Plate`. -/
theorem resolve_eq_subtype_closure_knot :
    Knot.code.resolve Knot.call = [Knot.plateArea] ∧
    (∃ c, Relation.ReflTransGen Knot.code.DirectSubtype c Knot.shape ∧
      Knot.code.dispatch c "void area()" = some Knot.plateArea) ∧
    ¬ ∃ c, Relation.ReflTransGen Knot.code.DirectSubtype c Knot.shape ∧
      Knot.code.dispatch c "void area()" = some Knot.coinArea := by
  obtain ⟨-, -, targets⟩ :=
    resolve_eq_subtype_closure Knot.code Knot.records Knot.filled (by decide) Knot.call
    (Or.inr rfl)
  have resolved : Knot.code.resolve Knot.call = [Knot.plateArea] := by decide +kernel
  refine ⟨resolved, (targets Knot.plateArea).mp ?_, fun h => ?_⟩
  · rw [resolved]
    exact List.mem_cons_self
  · have target := (targets Knot.coinArea).mpr h
    rw [resolved, List.mem_singleton] at target
    exact absurd target (by decide)

end CodeBase

end StaticAnalysis
