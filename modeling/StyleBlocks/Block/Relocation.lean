import StyleBlocks.Block.Config
import StyleBlocks.Block.Placeholder
import StyleBlocks.Location.LineMap
import StyleBlocks.Sheet.Node
import StyleBlocks.Template.Basic

/-!
# From style text back to the host

A style sheet is parsed from normalized text: its holes are placeholders, its blank first line and its
indentation are gone. A `Relocation` maps offsets and positions of that text to the host source, and
finds for every text of a tree the form it has with its indentation put back.

The place of an offset in the host is found as follows.

1. It starts at the first byte of the template's content, after what was taken away in front.
2. Each hole whose placeholder ends at or before the offset adds the difference of their sizes, and
   the line breaks of the hole. A shift of columns follows the host line on which the last hole ended:
   it adds up over the holes that end on one line, and is computed anew from the columns of a hole
   that ends on another line.
3. The shift of columns applies on that host line only.
4. The indentation taken from the position's own line goes to the column, the indentation taken from
   all lines up to it to the offset.

All of this is counted in words, the offset and the column in signed ones. An offset below zero counts as
zero, a column below one as one.
-/

namespace StyleBlocks

/-- What a hole changes for the places after it. -/
structure Shift where
  /-- Where its placeholder ends in the normalized text. -/
  localEnd : Nat
  /-- The size of its placeholder. -/
  placeholderSize : Nat
  /-- Its size in the host. -/
  hostSize : Nat
  /-- Where it starts in the host. -/
  start : Position
  /-- Where it ends in the host. -/
  stop : Position
deriving DecidableEq, Repr

/-- How much longer the hole is than its placeholder. -/
def Shift.growth (s : Shift) : Int :=
  s.hostSize - s.placeholderSize

/-- The way from the normalized text of a template back to the host. -/
structure Relocation where
  /-- What was done to the content of the template. -/
  config : BlockConfig
  /-- The lines of the normalized text. -/
  lines : LineMap
  /-- The offset of the first byte of the content. -/
  offset : Nat
  /-- The position of the first byte of the content. -/
  position : Position
  /-- The holes, in order. -/
  shifts : List Shift
deriving DecidableEq, Repr

namespace Relocation

/-- The shifts for the holes between literal parts, the first of which comes before the hole with the
given index. A hole without a placeholder shifts nothing. -/
def shiftsFrom (index : Nat) (found : List Placeholder.Found) : List Template.Quasi → List Shift
  | q :: r :: qs =>
    let later := shiftsFrom (index + 1) found (r :: qs)
    match found.find? fun f => f.index = index with
    | none => later
    | some f =>
      { localEnd := f.span.stop
        placeholderSize := f.span.size
        hostSize := r.span.start - q.span.stop
        start := q.stop
        stop := r.start } :: later
  | _ => []

/-- The relocation for a template and the normalized text that was made of it. -/
def ofTemplate? (t : Template.Tagged) (normalized : Text) (config : BlockConfig) :
    Option Relocation := do
  let first ← t.quasis.head?
  return {
    config := config
    lines := LineMap.ofText normalized
    offset := first.span.start
    position := first.start
    shifts := shiftsFrom 0 (Placeholder.findAll normalized) t.quasis }

/-! ### Places -/

/-- What the holes before a place add up to. -/
structure Tally where
  /-- The number of bytes. -/
  bytes : Int
  /-- The number of lines. -/
  lines : Int
  /-- The host line on which the last hole ended. -/
  line : Nat
  /-- The shift of columns on that line. -/
  columns : Int
deriving DecidableEq, Repr

/-- Adds a hole. -/
def Tally.add (t : Tally) (s : Shift) : Tally where
  bytes := t.bytes + s.growth
  lines := t.lines + ((s.stop.line : Int) - s.start.line)
  line := s.stop.line
  columns :=
    if t.line = s.stop.line then t.columns + s.growth
    else if s.start.line = s.stop.line then s.growth
    else
      let carried := if t.line = s.start.line then t.columns else 0
      (s.stop.column : Int) - s.start.column - s.placeholderSize + carried

/-- What the holes before a local offset add up to. -/
def tally (r : Relocation) (offset : Nat) : Tally :=
  (r.shifts.filter fun s => s.localEnd ≤ offset).foldl Tally.add
    { bytes := 0, lines := 0, line := r.position.line, columns := (r.position.column : Int) - 1 }

/-- The line in the host of a place in the normalized text. -/
def hostLine (r : Relocation) (offset : Nat) (p : Position) : Nat :=
  Word.ofInt
    (p.line + ((r.position.line : Int) - 1) + r.config.frontLines + (r.tally offset).lines)

/-- The column in the host of a place in the normalized text, as a signed word. -/
def hostColumn (r : Relocation) (offset : Nat) (p : Position) : Int :=
  let t := r.tally offset
  let column : Int := p.column + r.config.indentations.width p.line
  Word.signed (if r.hostLine offset p = t.line then column + t.columns else column)

/-- The offset in the host of a place in the normalized text, as a signed word. -/
def hostByte (r : Relocation) (offset : Nat) (p : Position) : Int :=
  Word.signed (offset + r.offset + r.config.frontBytes + (r.tally offset).bytes +
    r.config.indentations.cumulative p.line)

/-- The offset and the position in the host of a place in the normalized text. -/
def place (r : Relocation) (offset : Nat) (p : Position) : Nat × Position :=
  ((r.hostByte offset p).toNat,
    { line := r.hostLine offset p, column := (max (r.hostColumn offset p) 1).toNat })

/-- The range in the host of a range in the normalized text. -/
def range (r : Relocation) (a : Range) : Range :=
  let start := r.place a.span.start a.start
  let stop := r.place a.span.stop a.stop
  { span := ⟨start.1, stop.1⟩, start := start.2, stop := stop.2 }

/-! ### Indentation -/

/-- The starts of lines that belong to a text. -/
inductive Ownership where
  /-- Those after a line break in the text. -/
  | inner
  /-- Also the one at which the text itself starts, if a line starts there. -/
  | lineStart
  /-- The same, and the last line of the text is the last of the block. -/
  | trailing
deriving DecidableEq, Repr

/-- What is put back in front of the line with index `k` of a text that starts at an offset of the
normalized text, if anything is. -/
def frontOfLine (r : Relocation) (raw : Text) (start : Nat) (o : Ownership) (k : Nat) : Option Text :=
  if k = 0 ∧ (o = .inner ∨ ¬ r.lines.isLineStart start) then none
  else if o = .trailing ∧ k ≠ 0 ∧ k + 1 = (Text.lines raw).length then r.config.indentations.trailing
  else r.config.indentations.line? (r.lines.lineOf start + k)

/-- A text that starts at an offset of the normalized text, with the indentation put back at every
start of a line that belongs to it. -/
def reindent (r : Relocation) (raw : Text) (start : Nat) (o : Ownership) : Text :=
  Text.joinLines ((Text.lines raw).zipIdx.map fun l =>
    (r.frontOfLine raw start o l.2).getD [] ++ l.1)

open Sheet

/-- Records the form of a text with its indentation, if that differs from the text. -/
def record (r : Relocation) (key : RawKey) (raw : Text) (start : Nat) (o : Ownership)
    (cs : Corrections) : Corrections :=
  let corrected := r.reindent raw start o
  if corrected = raw then cs else cs.insert key ⟨raw, corrected⟩

/-- Records a raw that may be missing. -/
def record? (r : Relocation) (key : RawKey) (raw : Option Text) (start : Nat) (o : Ownership)
    (cs : Corrections) : Corrections :=
  match raw with
  | some t => r.record key t start o cs
  | none => cs

/-- The size of a raw that may be missing. -/
def sizeOf? (raw : Option Text) : Nat :=
  Text.byteSize (raw.getD [])

/-- Records what stands in front of a node that starts at an offset. -/
def recordBefore (r : Relocation) (before : Option Text) (start : Nat) (cs : Corrections) :
    Corrections :=
  r.record? .before before (start - sizeOf? before) .lineStart cs

/-- Records what stands in front of a closing brace that ends at an offset. -/
def recordAfter (r : Relocation) (after : Option Text) (stop : Nat) (cs : Corrections) :
    Corrections :=
  r.record? .after after (stop - (1 + sizeOf? after)) .inner cs

/-- The corrections for a rule at a span. -/
def ruleCorrections (r : Relocation) (h : RuleHead) (s : Span) : Corrections :=
  let selectorEnd := s.start + Text.byteSize h.selector
  r.recordBefore h.before s.start ∅
    |> r.record .value h.selector s.start .inner
    |> r.record? .between h.between selectorEnd .inner
    |> r.recordAfter h.after s.stop

/-- The corrections for the head of an at-rule at a span. -/
def atRuleCorrections (r : Relocation) (h : AtRuleHead) (s : Span) : Corrections :=
  let nameEnd := s.start + 1 + Text.byteSize h.name
  let paramsStart := nameEnd + sizeOf? h.afterName
  r.recordBefore h.before s.start ∅
    |> r.record? .afterName h.afterName nameEnd .inner
    |> r.record .value h.params paramsStart .inner
    |> r.record? .between h.between (paramsStart + Text.byteSize h.params) .inner

/-- The corrections for a declaration at a span. -/
def declarationCorrections (r : Relocation) (d : Declaration) (s : Span) : Corrections :=
  let propEnd := s.start + Text.byteSize d.prop
  let valueStart := propEnd + sizeOf? d.between
  r.recordBefore d.before s.start ∅
    |> r.record .prop d.prop s.start .inner
    |> r.record? .between d.between propEnd .inner
    |> r.record .value d.value valueStart .inner
    |> r.record? .after d.after (valueStart + Text.byteSize d.value) .inner

/-- The corrections for a comment at a span. -/
def commentCorrections (r : Relocation) (c : Comment) (s : Span) : Corrections :=
  r.recordBefore c.before s.start ∅ |> r.record .value c.text (s.start + 2) .inner

/-- The head of a rule, moved to the host. -/
def ruleHead (r : Relocation) (h : RuleHead) : RuleHead :=
  match h.source with
  | none => h
  | some a => { h with source := some (r.range a), corrections := r.ruleCorrections h a.span }

/-- The head of an at-rule, moved to the host; `hasBlock` tells if it has a block. -/
def atRuleHead (r : Relocation) (hasBlock : Bool) (h : AtRuleHead) : AtRuleHead :=
  match h.source with
  | none => h
  | some a =>
    let cs := r.atRuleCorrections h a.span
    let cs := if hasBlock then r.recordAfter h.after a.span.stop cs else cs
    { h with source := some (r.range a), corrections := cs }

/-- A declaration, moved to the host. -/
def declaration (r : Relocation) (d : Declaration) : Declaration :=
  match d.source with
  | none => d
  | some a => { d with source := some (r.range a), corrections := r.declarationCorrections d a.span }

/-- A comment, moved to the host. -/
def comment (r : Relocation) (c : Comment) : Comment :=
  match c.source with
  | none => c
  | some a => { c with source := some (r.range a), corrections := r.commentCorrections c a.span }

mutual

/-- A node and all nodes below it, moved to the host. -/
def node (r : Relocation) : Node → Node
  | .rule h ns => .rule (r.ruleHead h) (r.nodes ns)
  | .atRule h ns => .atRule (r.atRuleHead true h) (r.nodes ns)
  | .atStatement h => .atStatement (r.atRuleHead false h)
  | .declaration d => .declaration (r.declaration d)
  | .comment c => .comment (r.comment c)

/-- Nodes and all nodes below them, moved to the host. -/
def nodes (r : Relocation) : List Node → List Node
  | [] => []
  | n :: ns => r.node n :: r.nodes ns

end

/-- A style sheet, moved to the host. -/
def root (r : Relocation) (s : Root) : Root :=
  { s with
    nodes := r.nodes s.nodes
    source := s.source.map r.range
    corrections := r.record? .after s.after (r.lines.size - sizeOf? s.after) .trailing ∅ }

end Relocation

end StyleBlocks
