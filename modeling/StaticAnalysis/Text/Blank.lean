import StaticAnalysis.Text.Ranges

/-!
# Blanks

The white space of all scripts, with the four separators U+001C to U+001F, and its removal at both
ends of a text.
-/

namespace StaticAnalysis.Text

/-- The ranges of blank characters. -/
def blankRanges : List (Nat × Nat) :=
  [
    (0x0009, 0x000D), (0x001C, 0x0020), (0x0085, 0x0085), (0x00A0, 0x00A0), (0x1680, 0x1680),
    (0x2000, 0x200A), (0x2028, 0x2029), (0x202F, 0x202F), (0x205F, 0x205F), (0x3000, 0x3000)]

/-- Whether a character is blank. -/
def isBlank (c : Char) : Bool := inRanges blankRanges c

/-- Removes the blanks at both ends. -/
def trim (cs : List Char) : List Char :=
  ((cs.dropWhile isBlank).reverse.dropWhile isBlank).reverse

end StaticAnalysis.Text
