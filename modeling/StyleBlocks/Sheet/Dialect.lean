import StyleBlocks.Sheet.Parse

/-!
# Dialects

A **dialect** is a grammar with a name. All dialects are printed alike.
-/

namespace StyleBlocks.Sheet

/-- A style-sheet dialect. -/
structure Dialect where
  /-- Its name. -/
  name : Text
  /-- What it is, in a few words. -/
  description : Text := []
  /-- Its grammar. -/
  grammar : Grammar := {}
deriving DecidableEq, Repr, Inhabited

namespace Dialect

/-- Plain style sheets, with block comments only. -/
def css : Dialect where
  name := "css".toList
  description := "Plain CSS".toList

/-- Style sheets with inline comments. -/
def scss : Dialect where
  name := "scss".toList
  description := "SCSS with inline comments and interpolation".toList
  grammar := { inlineComments := true }

/-- Style sheets with inline comments and rules without blocks. -/
def less : Dialect where
  name := "less".toList
  description := "LESS with inline comments and mixin calls".toList
  grammar := { inlineComments := true, bareStatements := true }

/-- The dialects that are built in. -/
def builtin : List Dialect :=
  [css, scss, less]

/-- The style sheet that a text from the given input denotes. -/
def parse (d : Dialect) (origin : Option Text) (t : Text) : Except ParseError Root :=
  (Sheet.parse d.grammar t).map fun r => { r with origin := origin }

end Dialect

end StyleBlocks.Sheet
