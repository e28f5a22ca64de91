import StaticAnalysis.Code.Fault
import StaticAnalysis.Collection.Table

/-!
# Class hierarchies

A `Hierarchy` knows the registered classes by name and, for every class, the registered classes
directly below it. The links upward (`Links`) belong to the classes themselves and may change
later; the tables of a hierarchy record them as they were at registration.

* `Hierarchy.register` — adds a class, unless its name is taken.
* `Hierarchy.below` — the direct subtypes that the hierarchy has recorded.
-/

namespace StaticAnalysis

/-- The links of a class upward: its superclass, and the interfaces that it implements or, for an
interface, extends. -/
structure Links where
  superclass : Option Class := none
  interfaces : List Class := []
deriving DecidableEq

/-- The registered classes and their direct subtypes, in the order of registration. -/
structure Hierarchy where
  classes : Table String Class := {}
  subclasses : Table Class (List Class) := {}
  subinterfaces : Table Class (List Class) := {}
  implementors : Table Class (List Class) := {}
deriving DecidableEq

namespace Hierarchy

/-- Records a class below each of the given ones, once for every occurrence. -/
def recordBelow (t : Table Class (List Class)) (above : List Class) (c : Class) :
    Table Class (List Class) :=
  above.foldl (fun t a => t.push a c) t

/-- Registers a class under its name, below the classes that its links name. -/
def register (h : Hierarchy) (c : Class) (links : Links) : Except Fault Hierarchy :=
  if h.classes.contains c.name then
    .error (.classDefinedTwice c.name)
  else
    .ok
      { classes := h.classes.set c.name c
        subclasses := recordBelow h.subclasses links.superclass.toList c
        subinterfaces :=
          if c.isInterface then recordBelow h.subinterfaces links.interfaces c else h.subinterfaces
        implementors :=
          if c.isInterface then h.implementors else recordBelow h.implementors links.interfaces c }

/-- The registered classes, in order. -/
def registered (h : Hierarchy) : List Class := h.classes.values

def subclassesOf (h : Hierarchy) (c : Class) : List Class := h.subclasses.getD c []

def subinterfacesOf (h : Hierarchy) (c : Class) : List Class := h.subinterfaces.getD c []

def implementorsOf (h : Hierarchy) (c : Class) : List Class := h.implementors.getD c []

/-- The direct subtypes of a class: below an interface its subinterfaces and then its
implementors, below any other class its subclasses. -/
def below (h : Hierarchy) (c : Class) : List Class :=
  if c.isInterface then h.subinterfacesOf c ++ h.implementorsOf c else h.subclassesOf c

/-- The number of subtype links that the hierarchy has recorded. -/
def linkCount (h : Hierarchy) : Nat :=
  (h.subclasses.values ++ h.subinterfaces.values ++ h.implementors.values).flatten.length

end Hierarchy

end StaticAnalysis
