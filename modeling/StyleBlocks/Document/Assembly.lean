import StyleBlocks.Block.Extraction
import StyleBlocks.Block.Matcher
import StyleBlocks.Block.Relocation
import StyleBlocks.Document.Basic
import StyleBlocks.Sheet.Dialect
import StyleBlocks.Template.Scan

/-!
# From host files to documents

The templates of a host file are found, those that hold style text are selected, and each of them is
extracted, normalized, parsed and moved back to its place in the host. Templates that cannot be parsed
or that stand inside a block are set aside. The host text between blocks goes with the block after it.
-/

namespace StyleBlocks

/-- What decides how a host file is read. -/
structure Assembly where
  /-- Finds the templates of the host file. -/
  templates : Text → Except Template.ScanError (List Template.Tagged) := Template.findTemplates
  /-- The dialect of the style text. -/
  dialect : Sheet.Dialect
  /-- Tells which templates hold style text. -/
  matcher : Matcher
  /-- The line comment that switches extraction off for the statement after it. -/
  directive : Text

/-- The style text of one template. -/
structure NormalizedBlock where
  /-- The range of the template's content in the host. -/
  range : Range
  /-- The style text. -/
  text : Text
  /-- The texts of the holes. -/
  expressions : List Text
deriving DecidableEq, Repr

namespace Assembly

/-- Whether a template holds style text. -/
def selects (a : Assembly) (t : Template.Tagged) : Bool :=
  !t.hasLeadingComment a.directive && a.matcher.accepts t.tag

/-- The style sheet of a template in its place in the host, and how its text came about. -/
def readBlock (a : Assembly) (origin : Option Text) (source : Text) (t : Template.Tagged) :
    Except Sheet.ParseError (Sheet.Root × BlockConfig) := do
  let extracted := Extraction.ofTemplate t source
  let normalized := Normalized.ofText extracted.text t.base
  let config : BlockConfig :=
    { hostEdges := { front := normalized.dropped }
      indentations := normalized.indentations
      expressions := extracted.expressions }
  let root ← a.dialect.parse origin normalized.text
  match Relocation.ofTemplate? t normalized.text config with
  | some r => return (r.root root, config)
  | none => return (root, config)

/-- How far assembling has come. -/
structure Progress where
  /-- The end of the last block's content. -/
  cursor : Nat := 0
  /-- The blocks so far. -/
  blocks : List StyleBlock := []
  /-- The templates set aside so far. -/
  skipped : List SkippedBlock := []

/-- Sets a template with the given content aside. -/
def Progress.skip (lines : LineMap) (content : Span) (reason : SkipReason) (p : Progress) :
    Progress :=
  { p with skipped := p.skipped ++ [⟨lines.range content, reason⟩] }

/-- Adds a template, as a block or as one that is set aside. -/
def add (a : Assembly) (origin : Option Text) (lines : LineMap) (source : Text) (p : Progress)
    (t : Template.Tagged) : Progress :=
  match t.contentSpan? with
  | none => p
  | some content =>
    if content.start < p.cursor then p.skip lines content .nested
    else match a.readBlock origin source t with
    | .error e => p.skip lines content (.malformed e)
    | .ok (root, config) =>
      let block : StyleBlock :=
        { root := root
          config := some config
          leading := Text.slice p.cursor (content.start + config.frontBytes) source }
      { p with cursor := content.stop, blocks := p.blocks ++ [block] }

/-- Gives the host text after the last block to it. -/
def closeBlocks (trailing : Text) : List StyleBlock → List StyleBlock
  | [] => []
  | [b] => [{ b with trailing := some trailing }]
  | b :: c :: bs => b :: closeBlocks trailing (c :: bs)

/-- The document of a source with the given templates. -/
def documentOf (a : Assembly) (origin : Option Text) (source : Text)
    (templates : List Template.Tagged) : Document :=
  let p := (templates.filter a.selects).foldl (a.add origin (LineMap.ofText source) source) {}
  { source := source
    blocks := closeBlocks (Text.dropBytes p.cursor source) p.blocks
    skipped := p.skipped }

/-- The document of a host file. -/
def parse (a : Assembly) (origin : Option Text) (source : Text) :
    Except Template.ScanError Document :=
  (a.templates source).map (a.documentOf origin source)

/-- The style text of a template, if it has literal parts. -/
def normalizedBlock? (lines : LineMap) (source : Text) (t : Template.Tagged) :
    Option NormalizedBlock :=
  t.contentSpan?.map fun content =>
    let extracted := Extraction.ofTemplate t source
    { range := lines.range content
      text := (Normalized.ofText extracted.text t.base).text
      expressions := extracted.expressions }

/-- The style text of all templates that hold such, those that could not become blocks included. -/
def normalizedBlocks (a : Assembly) (source : Text) :
    Except Template.ScanError (List NormalizedBlock) :=
  (a.templates source).map fun ts =>
    (ts.filter a.selects).filterMap (normalizedBlock? (LineMap.ofText source) source)

end Assembly

end StyleBlocks
