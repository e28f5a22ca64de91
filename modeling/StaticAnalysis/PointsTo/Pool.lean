import StaticAnalysis.Context.Basic
import StaticAnalysis.Collection.Table

/-!
# Pools of pointers and objects

A `Pool` remembers the pointers and objects that an analysis has mentioned, in the order of their
first mention. A pointer is identified by its place in the pool: mentioning it again changes
nothing. Beside the list stands an index from variables to their pointers.

* `Pool.mention`, `Pool.mentionObj` — the pool with a pointer or an object in it.
* `Pool.pointerId?`, `Pool.objId?` — the place of a pointer or an object, which looks and adds
  nothing.
* `Pool.pointersOf` — the pointers of a variable under all contexts, in the order of their mention.
-/

namespace StaticAnalysis

/-- The pointers and objects mentioned so far. -/
structure Pool where
  pointers : List Pointer := []
  objects : List HeapObj := []
  byVar : Table Operand (List Pointer) := {}
deriving DecidableEq

namespace Pool

/-- Adds a pointer, unless the pool has it. -/
def mention (pool : Pool) (p : Pointer) : Pool :=
  if p ∈ pool.pointers then pool
  else
    { pool with
      pointers := pool.pointers ++ [p]
      byVar := match p.operand? with
        | some v => pool.byVar.push v p
        | none => pool.byVar }

/-- Adds an object, unless the pool has it. -/
def mentionObj (pool : Pool) (o : HeapObj) : Pool :=
  { pool with objects := adjoin pool.objects o }

/-- The place of a pointer. -/
def pointerId? (pool : Pool) (p : Pointer) : Option Nat := pool.pointers.idxOf? p

/-- The place of an object. -/
def objId? (pool : Pool) (o : HeapObj) : Option Nat := pool.objects.idxOf? o

/-- The pointers of a variable, in the order of their mention. -/
def pointersOf (pool : Pool) (v : Operand) : List Pointer := pool.byVar.getD v []

end Pool

end StaticAnalysis
