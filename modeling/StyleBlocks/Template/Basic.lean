import StyleBlocks.Location.Basic
import StyleBlocks.Text.Blank

/-!
# Tagged templates

What is known of a tagged template in host code: the shape of its tag, its literal parts, its holes
and the line comments that lead the statements around it.
-/

namespace StyleBlocks.Template

/-- The shape of a **tag**, the expression in front of a template. -/
inductive Tag where
  /-- A name. -/
  | identifier (name : Text)
  /-- A property of an expression. -/
  | member (object : Tag) (property : Text)
  /-- A call; its arguments are not kept. -/
  | call (callee : Tag)
  /-- A computed property of an expression; what is between the brackets is not kept. -/
  | computed (object : Tag)
  /-- Any other expression. -/
  | other
deriving DecidableEq, Repr, Inhabited

/-- A tag as it is shown, with an ellipsis for what is not kept. -/
def Tag.render : Tag → Text
  | identifier name => name
  | member object property => object.render ++ '.' :: property
  | call callee => callee.render ++ "(…)".toList
  | computed object => object.render ++ "[…]".toList
  | other => "…".toList

/-- A **quasi**: one literal part of a template. -/
structure Quasi where
  /-- The bytes of the part, delimiters excluded. -/
  span : Span
  /-- The position of its first byte. -/
  start : Position
  /-- The position just past its last byte. -/
  stop : Position
  /-- Its text as written. -/
  raw : Text
deriving DecidableEq, Repr

/-- A **hole**: one expression in a template. -/
structure Hole where
  /-- The bytes between the braces. -/
  span : Span
  /-- The position of the first of them. -/
  start : Position
deriving DecidableEq, Repr

/-- A template with a tag. -/
structure Tagged where
  /-- The tag. -/
  tag : Tag
  /-- The bytes from the start of the tag to just past the closing backtick. -/
  span : Span
  /-- The literal parts in order, one more than there are holes. -/
  quasis : List Quasi
  /-- The holes in order. -/
  holes : List Hole
  /-- The line comments that lead the statements around the template, outermost first. -/
  leadingComments : List Text
deriving DecidableEq, Repr

namespace Tagged

/-- The bytes between the backticks. -/
def contentSpan? (t : Tagged) : Option Span := do
  let first ← t.quasis.head?
  let last ← t.quasis.getLast?
  return ⟨first.span.start, last.span.stop⟩

/-- The position of the first byte after the opening backtick. -/
def contentStart? (t : Tagged) : Option Position :=
  t.quasis.head?.map Quasi.start

/-- The position of the closing backtick. -/
def closingBacktick? (t : Tagged) : Option Position :=
  t.quasis.getLast?.map Quasi.stop

/-- Whether one of the leading comments, blanks around it aside, is the given text. -/
def hasLeadingComment (t : Tagged) (text : Text) : Bool :=
  t.leadingComments.any fun c => Text.trim c == text

end Tagged

end StyleBlocks.Template
