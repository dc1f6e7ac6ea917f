import StyleBlocks.Block.Placeholder
import StyleBlocks.Document.Basic
import StyleBlocks.Text.Blank

/-!
# Documents as outlines

An **outline** shows a document on one line and each of its blocks and nodes on a line below it. Lines
draw the tree in front of an icon and a label: a node that is the last of its siblings hangs on a corner,
others on a branch, and a branch goes on past the nodes below it.
-/

namespace StyleBlocks.Outline

/-- One line of an outline below the document's. -/
structure Entry where
  /-- Whether each ancestor, outermost first, is the last of its siblings. -/
  ancestors : List Bool
  /-- Whether the node is the last of its siblings. -/
  isLast : Bool
  /-- The line of the host on which the node starts, or 0 if it stands nowhere. -/
  line : Nat
  /-- The icon for the kind of the node. -/
  icon : Char
  /-- The label. -/
  label : Text
deriving DecidableEq, Repr

/-- The greatest number of characters of a label that is shown in full. -/
def labelLimit : Nat := 30

/-- A label on one line, cut off after the limit. -/
def shorten (t : Text) : Text :=
  let flat := t.map fun c => if c = '\n' then '↵' else c
  if labelLimit < flat.length then flat.take labelLimit ++ "...".toList else flat

/-- What is drawn below a node for its part of the tree. -/
def rail (isLast : Bool) : Text :=
  if isLast then "  ".toList else "│ ".toList

/-- What is drawn in front of a node for its part of the tree. -/
def connector (isLast : Bool) : Text :=
  if isLast then "└─".toList else "├─".toList

/-- A number with at least two digits. -/
def twoDigits (n : Nat) : Text :=
  if n < 10 then '0' :: Text.ofNat n else Text.ofNat n

/-- An entry as a line of text, with the line number in front if `lineNumbers` holds. -/
def Entry.render (lineNumbers : Bool) (e : Entry) : Text :=
  (if lineNumbers then twoDigits e.line ++ [' '] else []) ++ e.ancestors.flatMap rail ++
    connector e.isLast ++ ' ' :: e.icon :: ' ' :: shorten e.label ++ ['\n']

/-- The text of the hole that a comment is the placeholder of. -/
def holeText? (expressions : List Text) (c : Sheet.Comment) : Option Text :=
  (Placeholder.readComment? c.text).bind fun i => expressions[i]?

/-- The icon of a node in a block with the given holes. -/
def icon (expressions : List Text) : Sheet.Node → Char
  | .rule .. => '§'
  | .atRule .. | .atStatement .. => '@'
  | .declaration .. => '≔'
  | .comment c => if (holeText? expressions c).isSome then '$' else '\x22'

/-- The label of an at-rule. -/
def atRuleLabel (h : Sheet.AtRuleHead) : Text :=
  if h.params.isEmpty then '@' :: h.name else '@' :: h.name ++ ' ' :: h.params

/-- The label of a node in a block with the given holes. -/
def label (expressions : List Text) : Sheet.Node → Text
  | .rule h _ => h.selector
  | .atRule h _ | .atStatement h => atRuleLabel h
  | .declaration d => d.prop ++ ": ".toList ++ d.value
  | .comment c => (holeText? expressions c).getD (Text.trim c.text)

/-- The host line on which something starts, or 0 if it stands nowhere. -/
def lineOf (source : Option Range) : Nat :=
  match source with
  | some r => r.start.line
  | none => 0

mutual

/-- The entries of a node and the nodes below it. -/
def nodeEntries (expressions : List Text) (ancestors : List Bool) (isLast : Bool) :
    Sheet.Node → List Entry
  | .rule h ns =>
    ⟨ancestors, isLast, lineOf h.source, icon expressions (.rule h ns),
      label expressions (.rule h ns)⟩ ::
      nodesEntries expressions (ancestors ++ [isLast]) ns
  | .atRule h ns =>
    ⟨ancestors, isLast, lineOf h.source, icon expressions (.atRule h ns),
      label expressions (.atRule h ns)⟩ ::
      nodesEntries expressions (ancestors ++ [isLast]) ns
  | .atStatement h =>
    [⟨ancestors, isLast, lineOf h.source, icon expressions (.atStatement h),
      label expressions (.atStatement h)⟩]
  | .declaration d =>
    [⟨ancestors, isLast, lineOf d.source, icon expressions (.declaration d),
      label expressions (.declaration d)⟩]
  | .comment c =>
    [⟨ancestors, isLast, lineOf c.source, icon expressions (.comment c),
      label expressions (.comment c)⟩]

/-- The entries of siblings and the nodes below them. -/
def nodesEntries (expressions : List Text) (ancestors : List Bool) :
    List Sheet.Node → List Entry
  | [] => []
  | n :: ns =>
    nodeEntries expressions ancestors ns.isEmpty n ++ nodesEntries expressions ancestors ns

end

/-- The entries of a block and its nodes. -/
def blockEntries (isLast : Bool) (b : StyleBlock) : List Entry :=
  let label := match b.root.source with
    | some r => r.start.render
    | none => "block".toList
  ⟨[], isLast, lineOf b.root.source, '⊤', label⟩ ::
    nodesEntries b.expressions [isLast] b.root.nodes

/-- The entries of blocks and their nodes. -/
def blocksEntries : List StyleBlock → List Entry
  | [] => []
  | b :: bs => blockEntries bs.isEmpty b ++ blocksEntries bs

/-- The line for the document. -/
def heading (d : Document) : Text :=
  "⧉ ".toList ++ Text.ofNat d.blocks.length ++
    (if d.blocks.length = 1 then " block".toList else " blocks".toList) ++ ['\n']

end StyleBlocks.Outline

namespace StyleBlocks

/-- A document as an outline, with line numbers if `lineNumbers` holds. -/
def Document.outline (lineNumbers : Bool) (d : Document) : Text :=
  Outline.heading d ++ (Outline.blocksEntries d.blocks).flatMap (Outline.Entry.render lineNumbers)

end StyleBlocks
