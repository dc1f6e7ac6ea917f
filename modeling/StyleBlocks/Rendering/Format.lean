import StyleBlocks.Catalog
import StyleBlocks.Json.Basic
import StyleBlocks.Rendering.DocumentJson
import StyleBlocks.Rendering.Outline

/-!
# Formats

A **format** turns a document into text. Formats are found by name.
-/

namespace StyleBlocks

/-- Why a document has no text in a format. -/
inductive FormatError where
  /-- There is no such format. -/
  | unknownFormat (name : Text)
  /-- The format cannot show the document. -/
  | unsuited (reason : Text)
deriving DecidableEq, Repr

/-- The message for an error. -/
def FormatError.message : FormatError → Text
  | unknownFormat name => "Format \x27".toList ++ name ++ "\x27 not found".toList
  | unsuited reason => "Serialization error: ".toList ++ reason

/-- A way to show documents. -/
structure Format where
  /-- Its name. -/
  name : Text
  /-- What it is, in a few words. -/
  description : Text := []
  /-- The text of a document. -/
  render : Document → Except FormatError Text

namespace Format

/-- Documents as outlines, without line numbers. -/
def outline : Format where
  name := "treeviz".toList
  description := "Visual tree representation with indentation and Unicode icons".toList
  render d := .ok (d.outline false)

/-- Documents as JSON on several lines. -/
def json : Format where
  name := "json".toList
  description := "Full document as JSON, positions and raws included".toList
  render d := .ok d.toJson.pretty

/-- The formats that are built in, by name. -/
def builtin : Catalog Format :=
  Catalog.ofList ([outline, json].map fun f => (f.name, f))

end Format

/-- The text of a document in the format with the given name. -/
def Document.showAs (formats : Catalog Format) (name : Text) (d : Document) :
    Except FormatError Text :=
  match formats.get? name with
  | some f => f.render d
  | none => .error (.unknownFormat name)

/-- The parameter that turns line numbers in outlines on, unless its value is `false`. -/
def Outline.lineNumberParameter : Text :=
  "show-linum".toList

/-- A document as an outline with the given parameters. -/
def Document.outlineWith (parameters : Catalog Text) (d : Document) : Text :=
  d.outline ((parameters.get? Outline.lineNumberParameter).any (· ≠ "false".toList))

end StyleBlocks
