/-!
# Arrangements

An analysis goes through sets whose elements have no order of their own. An `Arrangement` says in
which order they are taken, each time anew, so that what holds for all arrangements does not depend
on chance.
-/

namespace StaticAnalysis

/-- An order in which to take the elements of a set. It may differ from one time to the next. -/
structure Arrangement (α : Type) where
  arrange : Nat → List α → List α
  perm : ∀ time xs, (arrange time xs).Perm xs

namespace Arrangement

/-- Takes the elements as they come. -/
def asListed {α : Type} : Arrangement α := ⟨fun _ xs => xs, fun _ xs => List.Perm.refl xs⟩

end Arrangement

end StaticAnalysis
