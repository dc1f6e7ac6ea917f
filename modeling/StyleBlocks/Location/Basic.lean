import StyleBlocks.Text.Basic

/-!
# Positions and ranges

A place in a text is named in two ways: by its byte offset, counted from 0, and by its line and
column, counted from 1, where a column counts bytes too. The end of a range is the place just past
its last byte.
-/

namespace StyleBlocks

/-- A line and a column, both counted from 1; the column counts bytes. -/
structure Position where
  /-- The line. -/
  line : Nat := 1
  /-- The column. -/
  column : Nat := 1
deriving DecidableEq, Repr, Inhabited

namespace Position

/-- Positions are ordered by line first. -/
instance : LT Position where
  lt p q := p.line < q.line ∨ (p.line = q.line ∧ p.column < q.column)

/-- Positions are ordered by line first. -/
instance : LE Position where
  le p q := p.line < q.line ∨ (p.line = q.line ∧ p.column ≤ q.column)

instance (p q : Position) : Decidable (p < q) :=
  inferInstanceAs (Decidable (_ ∨ _))

instance (p q : Position) : Decidable (p ≤ q) :=
  inferInstanceAs (Decidable (_ ∨ _))

/-- A position as it is shown: line, colon, column. -/
def render (p : Position) : Text :=
  Text.ofNat p.line ++ ':' :: Text.ofNat p.column

end Position

/-- A **span**: the bytes from `start` up to, and without, `stop`. -/
structure Span where
  /-- The offset of the first byte. -/
  start : Nat := 0
  /-- The offset just past the last byte. -/
  stop : Nat := 0
deriving DecidableEq, Repr, Inhabited

/-- The number of bytes of a span; none if it is reversed. -/
def Span.size (s : Span) : Nat :=
  s.stop - s.start

/-- The text under a span. -/
def Span.of (s : Span) (t : Text) : Text :=
  Text.slice s.start s.stop t

/-- The text under a span, if its ends are boundaries of the text and in order. -/
def Span.of? (s : Span) (t : Text) : Option Text :=
  Text.slice? s.start s.stop t

/-- A **range**: a span together with the positions of its two ends. -/
structure Range where
  /-- The bytes. -/
  span : Span := {}
  /-- The position of the first byte. -/
  start : Position := {}
  /-- The position just past the last byte. -/
  stop : Position := {}
deriving DecidableEq, Repr, Inhabited

namespace Range

/-- Whether a position lies in a range, both ends included. -/
def contains (r : Range) (p : Position) : Bool :=
  r.start ≤ p && p ≤ r.stop

/-- The number of bytes of a range. -/
def size (r : Range) : Nat :=
  r.span.size

/-- A range as it is shown: its two positions with two dots between them. -/
def render (r : Range) : Text :=
  r.start.render ++ '.' :: '.' :: r.stop.render

end Range

end StyleBlocks
