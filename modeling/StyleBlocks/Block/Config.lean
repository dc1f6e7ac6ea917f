import StyleBlocks.Block.Indentation

/-!
# What ties a style block to its host

A `BlockConfig` records everything that was done to the content of a template to make style text of
it: what was taken away and what was put in the place of its holes.
-/

namespace StyleBlocks

/-- What was taken away at the two edges of a text. -/
structure Edges where
  /-- What was taken away in front. -/
  front : Extent := {}
  /-- What was taken away behind. -/
  back : Extent := {}
deriving DecidableEq, Repr, Inhabited

/-- How the style text of a block came from the content of its template. -/
structure BlockConfig where
  /-- What was taken from the host text before it became style text. -/
  hostEdges : Edges := {}
  /-- What was taken from the style text. -/
  styleEdges : Edges := {}
  /-- The indentations taken from the lines of the style text. -/
  indentations : Indentations := {}
  /-- The text of each hole, its delimiters included. -/
  expressions : List Text := []
deriving DecidableEq, Repr, Inhabited

namespace BlockConfig

/-- The number of bytes from the start of the content to the start of the style text. -/
def frontBytes (c : BlockConfig) : Nat :=
  c.hostEdges.front.bytes + c.styleEdges.front.bytes

/-- The number of line breaks from the start of the content to the start of the style text. -/
def frontLines (c : BlockConfig) : Nat :=
  c.hostEdges.front.lines + c.styleEdges.front.lines

end BlockConfig

end StyleBlocks
