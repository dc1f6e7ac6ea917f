import StyleBlocks.Text.Basic

/-!
# Indentation

Style text in a template is indented to match the host code around it. The column of the closing
backtick sets how many blanks of each line are indentation of the host. `normalize` takes these away,
together with a blank first line, and keeps what it took in `Indentations`, so that the text can be
indented again as it was.
-/

namespace StyleBlocks

/-- The **indentations** taken from the lines of a text. -/
structure Indentations where
  /-- What was taken from each line, by its number from 1 up; lines from which nothing was taken are
  missing. -/
  lines : List (Nat × Text) := []
  /-- What was taken from the last line, if anything was. -/
  trailing : Option Text := none
deriving DecidableEq, Repr, Inhabited

namespace Indentations

/-- Puts an entry in its place in a list that is ordered by line, in place of another for its line. -/
def insertLine (line : Nat) (taken : Text) : List (Nat × Text) → List (Nat × Text)
  | [] => [(line, taken)]
  | (n, t) :: entries =>
    if line < n then (line, taken) :: (n, t) :: entries
    else if line = n then (line, taken) :: entries
    else (n, t) :: insertLine line taken entries

/-- Sets what was taken from a line. -/
def insert (line : Nat) (taken : Text) (i : Indentations) : Indentations :=
  { i with lines := insertLine line taken i.lines }

/-- What was taken from a line, if anything was. -/
def line? (i : Indentations) (line : Nat) : Option Text :=
  i.lines.lookup line

/-- The number of bytes taken from a line. -/
def width (i : Indentations) (line : Nat) : Nat :=
  Text.byteSize ((i.line? line).getD [])

/-- The number of bytes taken from all lines up to and including the given one. -/
def cumulative (i : Indentations) (through : Nat) : Nat :=
  (i.lines.filter fun e => e.1 ≤ through).foldr (fun e n => Text.byteSize e.2 + n) 0

/-- The number of lines from which something was taken. -/
def size (i : Indentations) : Nat :=
  i.lines.length

/-- Whether nothing was taken anywhere. -/
def isEmpty (i : Indentations) : Bool :=
  i.lines.isEmpty && i.trailing.isNone

end Indentations

/-- How much was taken away at an edge of a text. -/
structure Extent where
  /-- The number of bytes. -/
  bytes : Nat := 0
  /-- The number of line breaks. -/
  lines : Nat := 0
deriving DecidableEq, Repr, Inhabited

/-- A text without its indentation. -/
structure Normalized where
  /-- The text. -/
  text : Text
  /-- What was taken from its lines. -/
  indentations : Indentations
  /-- The extent of the blank first line that was taken away. -/
  dropped : Extent
deriving DecidableEq, Repr

namespace Normalized

/-- The width of the indentation when the closing backtick stands at a column. -/
def baseOfColumn (column : Nat) : Nat :=
  column - 1

/-- The blanks that lines are indented with. -/
def isIndent (c : Char) : Bool :=
  c == ' ' || c == '\t'

/-- Whether a line is made of blanks only, a carriage return among them. -/
def isBlankLine (l : Text) : Bool :=
  l.all fun c => isIndent c || c == '\r'

/-- The indentation of a line and what follows it: `base` blanks if the line starts with so many, and
nothing otherwise. -/
def stripLine (base : Nat) (l : Text) : Text × Text :=
  if base ≤ l.length ∧ (l.take base).all isIndent then (l.take base, l.drop base) else ([], l)

/-- The extent of the first line of a list if it is blank and not the last, and the other lines. -/
def dropBlankLine : List Text → Extent × List Text
  | l :: m :: ls => if isBlankLine l then (⟨Text.byteSize l + 1, 1⟩, m :: ls) else ({}, l :: m :: ls)
  | ls => ({}, ls)

/-- The entries for the indentations of lines of which the first has the given number. -/
def entriesFrom (line : Nat) : List Text → List (Nat × Text)
  | [] => []
  | t :: ts => if t.isEmpty then entriesFrom (line + 1) ts else (line, t) :: entriesFrom (line + 1) ts

/-- A text without its blank first line and without the indentation of the given width. -/
def ofText (text : Text) (base : Nat) : Normalized :=
  let (dropped, ls) := dropBlankLine (Text.lines text)
  let stripped := ls.map (stripLine base)
  let taken := stripped.map Prod.fst
  { text := Text.joinLines (stripped.map Prod.snd)
    indentations :=
      { lines := entriesFrom 1 taken
        trailing := taken.getLast?.filter fun t => !t.isEmpty }
    dropped := dropped }

end Normalized

end StyleBlocks
