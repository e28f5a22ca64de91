import StaticAnalysis.Code.Type
import StaticAnalysis.Collection.Ordered

/-!
# Methods and variables

A `Method` is the head of a method: all that is fixed when it is declared. Its body belongs to the
code base, so that a body can grow while the method stays the same value.

* `Method.subsignature` — the key of dispatch, `Method.signature` — the same under the class name.
* `Var` — a variable of a method. The first declaration of a name in a method fixes its type.
* `Method.params`, `Method.this?` — the variables that a call fills.
-/

namespace StaticAnalysis

/-- The head of a method. -/
structure Method where
  index : Nat
  name : String
  owner : Class
  paramTypes : List Ty
  /-- The names of the parameters; the shorter of the two lists decides how many there are. -/
  paramNames : List String
  returns : Ty
  isStatic : Bool
  /-- Whether the method has no body of its own. -/
  isAbstract : Bool
deriving DecidableEq

/-- Whether two methods are the same. A shared value is noticed at once. -/
instance Method.decEq : DecidableEq Method := fun m n =>
  withPtrEqDecEq m n fun _ => instDecidableEqMethod m n

/-- A variable of a method. -/
structure Var where
  name : String
  owner : Method
  /-- Its type, as first declared. -/
  type : Ty
deriving DecidableEq

/-- Whether two variables are the same. A shared value is noticed at once. -/
instance Var.decEq : DecidableEq Var := fun v w =>
  withPtrEqDecEq v w fun _ => instDecidableEqVar v w

namespace Method

def qualifiedName (m : Method) : String := m.owner.name ++ "." ++ m.name

/-- Result type, name and parameter types: what dispatch looks for. -/
def subsignature (m : Method) : String :=
  m.returns.text ++ " " ++ m.name ++ "(" ++ String.intercalate "," (m.paramTypes.map Ty.text) ++ ")"

/-- The subsignature under the name of the class. -/
def signature (m : Method) : String := "<" ++ m.owner.name ++ ": " ++ m.subsignature ++ ">"

def describe (m : Method) : String := "JMethod: " ++ m.signature

/-- The names that parameters have when none are given. -/
def defaultNames (count : Nat) : List String :=
  (List.range count).map fun i => "@param" ++ toString i

def receiverName : String := "@this"

def declaredParams (m : Method) : List (String × Ty) := m.paramNames.zip m.paramTypes

/-- The variable of a parameter name: the first parameter of that name fixes the type. -/
def param (m : Method) (name : String) (fallback : Ty) : Var :=
  ⟨name, m, (m.declaredParams.lookup name).getD fallback⟩

/-- The variables of the parameters, in order. -/
def params (m : Method) : List Var :=
  m.declaredParams.map fun p => m.param p.1 p.2

/-- The variable that holds the receiver; static methods have none. -/
def this? (m : Method) : Option Var :=
  if m.isStatic then none else some (m.param receiverName (.cls m.owner))

/-- The variables that a method has from its head. -/
def headVars (m : Method) : List Var := distinct (m.params ++ m.this?.toList)

end Method

namespace Var

/-- A variable is written behind the qualified name of its method. -/
def text (v : Var) : String := "<" ++ v.owner.qualifiedName ++ ">" ++ v.name

def describe (v : Var) : String := "Variable: " ++ v.text

def isReference (v : Var) : Bool := v.type.isReference

end Var

end StaticAnalysis
