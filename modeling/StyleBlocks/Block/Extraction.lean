import StyleBlocks.Block.Indentation
import StyleBlocks.Block.Placeholder
import StyleBlocks.Template.Basic

/-!
# From templates to style text

The literal parts of a template are joined to one text with a placeholder for every hole, and the text
of the holes is kept aside.
-/

namespace StyleBlocks

/-- What a template becomes. -/
structure Extraction where
  /-- The literal parts with placeholders between them. -/
  text : Text
  /-- The text of each hole, its delimiters included. -/
  expressions : List Text
deriving DecidableEq, Repr

namespace Extraction

/-- The literal parts with the placeholders from the given index on between them. -/
def joinFrom (index : Nat) : List Template.Quasi → Text
  | [] => []
  | [q] => q.raw
  | q :: r :: qs => q.raw ++ Placeholder.create index ++ joinFrom (index + 1) (r :: qs)

/-- What stands in the source between each literal part and the next. -/
def gaps (source : Text) : List Template.Quasi → List Text
  | q :: r :: qs =>
    (Text.slice? q.span.stop r.span.start source).getD [] :: gaps source (r :: qs)
  | _ => []

/-- What a template of the source becomes. -/
def ofTemplate (t : Template.Tagged) (source : Text) : Extraction where
  text := joinFrom 0 t.quasis
  expressions := gaps source t.quasis

end Extraction

/-- The width of the indentation of a template, which its closing backtick sets. -/
def Template.Tagged.base (t : Template.Tagged) : Nat :=
  match t.closingBacktick? with
  | some p => Normalized.baseOfColumn p.column
  | none => 0

end StyleBlocks
