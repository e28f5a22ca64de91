/-!
# Ranges of characters

A class of characters is given by a list of ranges of code points, both ends included.
-/

namespace StaticAnalysis.Text

/-- Whether a code point lies in one of the ranges. -/
def inRanges (ranges : List (Nat × Nat)) (c : Char) : Bool :=
  ranges.any fun r => r.1 ≤ c.toNat && c.toNat ≤ r.2

end StaticAnalysis.Text
