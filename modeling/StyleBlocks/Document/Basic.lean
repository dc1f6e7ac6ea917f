import StyleBlocks.Block.Config
import StyleBlocks.Sheet.Error
import StyleBlocks.Sheet.Node

/-!
# Documents

A **document** is a host file seen as its style blocks: each block is a style sheet with the host text in
front of it, and the last one also has the host text after it. A template that holds style text but
cannot become a block is set aside with the reason, and its text stays host text.
-/

namespace StyleBlocks

/-- A **style block**: the style sheet of one template, in its place in the host. -/
structure StyleBlock where
  /-- The style sheet. -/
  root : Sheet.Root
  /-- How its text came from the template. -/
  config : Option BlockConfig := none
  /-- The host text since the block before. -/
  leading : Text := []
  /-- The host text after the block, if it is the last. -/
  trailing : Option Text := none

namespace StyleBlock

/-- The texts of the holes of a block. -/
def expressions (b : StyleBlock) : List Text :=
  match b.config with
  | some c => c.expressions
  | none => []

end StyleBlock

/-- Why a template was set aside. -/
inductive SkipReason where
  /-- Its text is malformed; the error's position is local to that text. -/
  | malformed (error : Sheet.ParseError)
  /-- It stands inside a block. -/
  | nested
deriving DecidableEq, Repr

/-- A template that was set aside. -/
structure SkippedBlock where
  /-- The range of its content in the host. -/
  range : Range
  /-- Why it was set aside. -/
  reason : SkipReason
deriving DecidableEq, Repr

/-- A host file seen as its style blocks. -/
structure Document where
  /-- The host text. -/
  source : Text := []
  /-- The style blocks in order. -/
  blocks : List StyleBlock := []
  /-- The templates that were set aside. -/
  skipped : List SkippedBlock := []
deriving Inhabited

/-! ### Diagnostics -/

/-- How serious a diagnostic is. -/
inductive Severity where
  /-- An error. -/
  | error
  /-- A warning. -/
  | warning
  /-- A piece of information. -/
  | information
deriving DecidableEq, Repr

/-- A severity as it is shown. -/
def Severity.render : Severity → Text
  | error => "error".toList
  | warning => "warning".toList
  | information => "info".toList

/-- A **diagnostic**: a message about a place in the host. -/
structure Diagnostic where
  /-- The place. -/
  range : Range
  /-- How serious it is. -/
  severity : Severity
  /-- What it says. -/
  message : Text
  /-- Who says it. -/
  source : Text := "tagstyle".toList
deriving DecidableEq, Repr

/-- A diagnostic as it is shown. -/
def Diagnostic.render (d : Diagnostic) : Text :=
  d.severity.render ++ " [".toList ++ d.source ++ "]: ".toList ++ d.message ++ " at ".toList ++
    d.range.start.render

/-- The diagnostic for a template that was set aside. -/
def SkippedBlock.diagnostic (s : SkippedBlock) : Diagnostic :=
  match s.reason with
  | .malformed e =>
    { range := s.range
      severity := .warning
      message := "style block left as host text: ".toList ++ e.message }
  | .nested =>
    { range := s.range
      severity := .information
      message := "nested style block kept inside its enclosing block".toList }

namespace Document

/-- Whether a document has no style blocks. -/
def isEmpty (d : Document) : Bool :=
  d.blocks.isEmpty

/-- The diagnostics for all templates that were set aside. -/
def diagnostics (d : Document) : List Diagnostic :=
  d.skipped.map SkippedBlock.diagnostic

end Document

end StyleBlocks
