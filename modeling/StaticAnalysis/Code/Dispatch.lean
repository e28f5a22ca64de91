import StaticAnalysis.Code.Base

/-!
# Dispatch

Which method a call runs. Superclass links may form a cycle, so the walk up a chain stops before
the first class that it meets a second time; `CodeBase.climbLimit` steps are always enough for it.

* `CodeBase.chain` — a class and its superclasses, each once, from below.
* `CodeBase.dispatch` — the first method on the chain that has a body.
* `CodeBase.rootOf` — the top of the chain, where the methods of arrays are declared.
* `CodeBase.resolveCallee` — the method that a call runs on a receiver of a given type.
-/

namespace StaticAnalysis

/-- The classes met on the way up from `c`, stopping before any of those in `seen`. -/
def climb (up : Class → Option Class) : Nat → List Class → Class → List Class
  | 0, _, _ => []
  | n + 1, seen, c =>
    if c ∈ seen then [] else
      c :: match up c with
        | none => []
        | some s => climb up n (c :: seen) s

/-- The class at which the way up from `c` ends: one without superclass, or the first one that is
met a second time. -/
def summit (up : Class → Option Class) : Nat → List Class → Class → Class
  | 0, _, c => c
  | n + 1, seen, c =>
    match up c with
    | none => c
    | some s => if c ∈ seen then c else summit up n (c :: seen) s

namespace CodeBase

variable (code : CodeBase)

/-- A way up meets the declared classes, and at most one more. -/
def climbLimit : Nat := code.classes.size + 2

/-- A class and its superclasses, each once, from below. -/
def chain (c : Class) : List Class := climb code.superOf code.climbLimit [] c

/-- The method with a body that a class itself declares. -/
def concrete? (c : Class) (subsignature : String) : Option Method :=
  (code.declared? c subsignature).filter fun m => !m.isAbstract

/-- The method that an object of a class runs for a subsignature: the first one with a body on
the chain of superclasses. -/
def dispatch (c : Class) (subsignature : String) : Option Method :=
  (code.chain c).findSome? fun d => code.concrete? d subsignature

/-- The top of the chain of superclasses; on a cyclic chain, a class of the cycle. -/
def rootOf (c : Class) : Class := summit code.superOf code.climbLimit [] c

/-- The method that a call runs. Static and special calls dispatch on the class they name, virtual
and interface calls on the type of the receiver; arrays run the methods of the root. -/
def resolveCallee (receiver : Ty) (call : Call) : Option Method :=
  match call.kind with
  | .static | .special => code.dispatch call.target.owner call.target.subsignature
  | .virtual | .interface =>
    match receiver with
    | .cls c => code.dispatch c call.target.subsignature
    | .array _ => code.dispatch (code.rootOf call.target.owner) call.target.subsignature
    | _ => none
  | .dynamic => none

end CodeBase

end StaticAnalysis
