import StyleBlocks.Location.Basic
import StyleBlocks.Location.Word

/-!
# Line maps

A **line map** holds where each line of a text starts, and turns byte offsets into positions and
back. `positionIn` counts line feeds instead and says what the position of an offset is.
-/

namespace StyleBlocks

/-- Where the lines of a text start. -/
structure LineMap where
  /-- The offset of the first byte of each line, in order. -/
  starts : List Nat
  /-- The size of the text. -/
  size : Nat
deriving DecidableEq, Repr

namespace LineMap

/-- The offsets just past each line feed of a text that starts at offset `o`. -/
def breaksFrom (o : Nat) : Text → List Nat
  | [] => []
  | c :: t =>
    if c = '\n' then (o + c.utf8Size) :: breaksFrom (o + c.utf8Size) t
    else breaksFrom (o + c.utf8Size) t

/-- The line map of a text. -/
def ofText (t : Text) : LineMap where
  starts := 0 :: breaksFrom 0 t
  size := Text.byteSize t

/-- The position of an offset; an offset past the end counts as the end. -/
def position (m : LineMap) (offset : Nat) : Position :=
  let o := min offset m.size
  let before := m.starts.takeWhile (· ≤ o)
  { line := before.length, column := o - before.getLastD 0 + 1 }

/-- The offset at which a line starts, if there is such a line. -/
def lineStart? (m : LineMap) (line : Nat) : Option Nat :=
  if line = 0 then none else m.starts[line - 1]?

/-- The offset of a position, if its line exists and the offset lies in the text. A column that runs past
the last word comes to an offset in front of its line. -/
def offset? (m : LineMap) (p : Position) : Option Nat := do
  let start ← m.lineStart? p.line
  let offset := start + (p.column - 1)
  if p.column = 0 then none
  else if offset ≤ m.size then some offset
  else if Word.count ≤ offset ∧ offset - Word.count < start then some (offset - Word.count)
  else none

/-- The line that an offset lies on. -/
def lineOf (m : LineMap) (offset : Nat) : Nat :=
  (m.position offset).line

/-- Whether a line starts at an offset. -/
def isLineStart (m : LineMap) (offset : Nat) : Bool :=
  m.starts.contains offset

/-- The number of lines. -/
def lineCount (m : LineMap) : Nat :=
  m.starts.length

/-- The range of a span. -/
def range (m : LineMap) (s : Span) : Range where
  span := s
  start := m.position s.start
  stop := m.position s.stop

end LineMap

/-- The position of an offset by counting: one more line than there are line feeds before it, and
one more column than there are bytes after the last of them. -/
def positionIn (t : Text) (offset : Nat) : Position :=
  let before := Text.takeBytes offset t
  { line := before.count '\n' + 1
    column := Text.byteSize ((before.reverse.takeWhile (· ≠ '\n'))) + 1 }

end StyleBlocks
