import StyleBlocks.Json.Reader
import StyleBlocks.Settings.Decoder

/-!
# Settings as JSON

In JSON a record is an object, or an array of its first fields in order. Texts are strings, and null
stands for a text that is missing.
-/

namespace StyleBlocks

namespace Json

/-- The text that a value is, or none if it is null. -/
def toOptionalText? : Json → Option (Option Text)
  | null => some none
  | v => v.toText?.map some

/-- The list of texts that a value is. -/
def toTexts? (v : Json) : Option (List Text) := do
  (← v.toList?).mapM toText?

/-- The fields of the record that a value is. -/
def toFields? (keys : List Text) : Json → Option (List (Text × Json))
  | object fields => some fields
  | array items => if items.length ≤ keys.length then some (keys.zip items) else none
  | _ => none

/-- How settings are read from JSON. -/
def decoder : Decoder Json where
  text? := toText?
  optionalText? := toOptionalText?
  texts? := toTexts?
  fields? := toFields?

end Json

/-- A matcher as JSON. -/
def Matcher.toJson (m : Matcher) : Json :=
  .record [("primary", .string m.primary), ("secondary", .string m.secondary),
    ("helpers", .ofList .string m.helpers)]

namespace Settings

/-- Settings as JSON. -/
def toJson (s : Settings) : Json :=
  .record [("id", .string s.id), ("dialect", .string s.dialect), ("matcher", s.matcher.toJson),
    ("disable_directive", .ofText? s.disableDirective)]

/-- The settings that a JSON value is. -/
def ofJson? (v : Json) : Option Settings :=
  Json.decoder.settings? v

/-- The settings that a JSON text denotes. -/
def readJson? (t : Text) : Option Settings := do
  ofJson? (← Json.read? t)

end Settings

end StyleBlocks
