import StyleBlocks.Text.Basic

/-!
# Blank characters

The characters with the Unicode property `White_Space`, and the trimming of texts by them. The
narrower classes of blanks that a grammar names for itself (spaces and tabs, for instance) stand
with that grammar.
-/

namespace StyleBlocks

/-- A character is **blank** if it has the Unicode property `White_Space`. -/
def isBlank (c : Char) : Bool :=
  ('\t' ≤ c && c ≤ '\r') || c == ' ' || c == '\u0085' || c == '\u00a0' || c == '\u1680' ||
  ('\u2000' ≤ c && c ≤ '\u200a') || c == '\u2028' || c == '\u2029' || c == '\u202f' ||
  c == '\u205f' || c == '\u3000'

namespace Text

/-- A text without the blanks it starts with. -/
def trimStart (t : Text) : Text :=
  t.dropWhile isBlank

/-- A text without the blanks it ends with. -/
def trimEnd (t : Text) : Text :=
  (t.reverse.dropWhile isBlank).reverse

/-- A text without the blanks at either end. -/
def trim (t : Text) : Text :=
  trimEnd (trimStart t)

end Text

end StyleBlocks
