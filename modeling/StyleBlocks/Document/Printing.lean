import StyleBlocks.Block.Placeholder
import StyleBlocks.Document.Basic
import StyleBlocks.Sheet.Fragment
import StyleBlocks.Template.RawText

/-!
# From documents to host files

A document is printed as a list of fragments. Host text goes out as it is. Every fragment of a style
sheet is made safe for its template: placeholders become the holes they stand for, and what would end
the template or open a hole is escaped. Texts are printed in their corrected forms where these still
hold, so that a document nobody has changed is printed as its source.
-/

namespace StyleBlocks

open Sheet Template

/-- A text as it can stand in a template with the given holes. -/
def hostText (expressions : List Text) (t : Text) : Text :=
  Placeholder.resolve RawText.escape expressions t

/-- A fragment as it can stand in a template with the given holes. A comment that is a placeholder as
a whole, blanks aside, becomes its hole. -/
def Sheet.Fragment.hostSafe (expressions : List Text) (f : Fragment) : Fragment :=
  match f.owner with
  | none | some .root => f
  | some .comment =>
    match (Placeholder.readFragment? f.text).bind fun i => expressions[i]? with
    | some e => { f with text := e }
    | none => { f with text := hostText expressions f.text }
  | some _ => { f with text := hostText expressions f.text }

/-- The fragments of the style sheet of a block. -/
def StyleBlock.rootFragments (b : StyleBlock) : List Fragment :=
  (Printer.root { overrides := .corrected } b.root).map (Fragment.hostSafe b.expressions)

/-- A fragment of host text at an edge of a block. -/
def hostFragment (boundary : Boundary) (t : Text) : Fragment :=
  { text := t, owner := some .root, boundary := some boundary }

namespace Document

/-- The fragments of blocks; the text after the last of them is printed, that after others is not. -/
def blockFragments : List StyleBlock → List Fragment
  | [] => []
  | b :: bs =>
    hostFragment .start b.leading :: b.rootFragments ++
      (if bs.isEmpty then (b.trailing.map (hostFragment .stop)).toList else []) ++ blockFragments bs

/-- The fragments of a document. One without blocks is printed as its source. -/
def fragments (d : Document) : List Fragment :=
  if d.blocks.isEmpty then [{ text := d.source }] else blockFragments d.blocks

/-- The text of a document. -/
def render (d : Document) : Text :=
  Fragment.texts d.fragments

end Document

end StyleBlocks
