/-!
# Classes, types and fields

The names a program declares are values of their own: a `Class` or a `Field` carries what is fixed
at its declaration, together with the place it was declared at, so that two declarations with the
same text are still two things.

* `Ty` — the types of variables, fields and objects. `Ty.unknown` stands for a type that is not
  known; it is treated as a reference.
* `Ty.isReference` — whether values of the type can point to objects.
-/

namespace StaticAnalysis

/-- A class or an interface. -/
structure Class where
  /-- The place of the class among all classes, which tells classes of one name apart. -/
  index : Nat
  name : String
  isInterface : Bool
  /-- Whether it has no instances of its own; interfaces never have. -/
  isAbstract : Bool
deriving DecidableEq

namespace Class

def describe (c : Class) : String := "JClass: " ++ c.name

end Class

/-- The type of a variable, a field or an object. -/
inductive Ty where
  | unknown
  | cls (c : Class)
  /-- A primitive type; the serial number tells types of one name apart. -/
  | prim (serial : Nat) (name : String)
  /-- Any other type that has only a name. -/
  | named (serial : Nat) (name : String)
  | array (element : Ty)
deriving DecidableEq

namespace Ty

def int : Ty := prim 0 "int"

def boolean : Ty := prim 1 "boolean"

/-- The result type of methods that return nothing. -/
def void : Ty := prim 2 "void"

/-- The first serial number that none of the built-in types has. -/
def firstFree : Nat := 3

def text : Ty → String
  | unknown => "None"
  | cls c => c.name
  | prim _ name => name
  | named _ name => name
  | array element => element.text ++ "[]"

def describe : Ty → String
  | unknown => "None"
  | cls c => c.describe
  | t => "Type: " ++ t.text

/-- Whether values of the type can point to objects: all but the primitive ones. -/
def isReference : Ty → Bool
  | prim _ _ => false
  | _ => true

end Ty

structure Field where
  index : Nat
  name : String
  owner : Class
  type : Ty
  /-- Whether there is one cell for the class instead of one for each object. -/
  isStatic : Bool
deriving DecidableEq

namespace Field

def text (f : Field) : String := "<" ++ f.owner.name ++ ": " ++ f.type.text ++ " " ++ f.name ++ ">"

def describe (f : Field) : String := "JField: " ++ f.text

end Field

end StaticAnalysis
