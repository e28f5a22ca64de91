import StaticAnalysis.Text.Sort

/-!
# Rows of reports

A report lists rows either in the order in which things were found or, where that order depends on
chance, sorted. Rows are compared entry by entry from the left.
-/

namespace StaticAnalysis

/-- Rows in the order of discovery, or sorted. -/
def arrangeRows {α : Type} (cmp : α → α → Ordering) (asFound : Bool) (rows : List α) : List α :=
  if asFound then rows else sortBy cmp rows

/-- A text followed by a list of texts. -/
abbrev ListRow := String × List String

/-- Two texts followed by a list of texts. -/
abbrev PairRow := String × String × List String

def compareListRows : ListRow → ListRow → Ordering := comparePairs compareTexts compareTextLists

instance : Std.TransCmp compareListRows :=
  inferInstanceAs (Std.TransCmp (comparePairs compareTexts compareTextLists))

instance : Std.LawfulEqCmp compareListRows :=
  inferInstanceAs (Std.LawfulEqCmp (comparePairs compareTexts compareTextLists))

def comparePairRows : PairRow → PairRow → Ordering := comparePairs compareTexts compareListRows

/-- Texts in the order of discovery, or sorted. -/
def arrangeTexts (asFound : Bool) (rows : List String) : List String :=
  arrangeRows compareTexts asFound rows

end StaticAnalysis
