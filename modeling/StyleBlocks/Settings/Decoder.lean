import StyleBlocks.Settings.Basic

/-!
# Reading settings from data

Settings can be written in more than one data format. A `Decoder` tells how texts, lists of texts and
records are read from the values of a format, and `Decoder.settings?` reads settings with it. Fields
that are missing keep their defaults, fields that settings do not have are ignored, and no field may
be given twice.
-/

namespace StyleBlocks

/-- How the values of a data format are read. -/
structure Decoder (α : Type) where
  /-- The text that a value is. -/
  text? : α → Option Text
  /-- The text that a value is, where it can also stand for none. -/
  optionalText? : α → Option (Option Text)
  /-- The list of texts that a value is. -/
  texts? : α → Option (List Text)
  /-- The fields of the record that a value is, given the keys that the record has in order. -/
  fields? : List Text → α → Option (List (Text × α))

namespace Decoder

variable {α β : Type}

/-- The value of the field with a key, or the default if there is no such field. -/
def field? (fields : List (Text × α)) (key : Text) (read : α → Option β) (default : β) : Option β :=
  match fields.filter fun f => f.1 == key with
  | [] => some default
  | [f] => read f.2
  | _ => none

/-- The keys of a matcher. -/
def matcherKeys : List Text :=
  ["primary", "secondary", "helpers"].map String.toList

/-- The matcher that a value is. -/
def matcher? (d : Decoder α) (v : α) : Option Matcher := do
  let fields ← d.fields? matcherKeys v
  let default : Matcher := {}
  return {
    primary := ← field? fields "primary".toList d.text? default.primary
    secondary := ← field? fields "secondary".toList d.text? default.secondary
    helpers := ← field? fields "helpers".toList d.texts? default.helpers }

/-- The keys of settings. -/
def settingsKeys : List Text :=
  ["id", "dialect", "matcher", "disable_directive"].map String.toList

/-- The settings that a value is. -/
def settings? (d : Decoder α) (v : α) : Option Settings := do
  let fields ← d.fields? settingsKeys v
  let default : Settings := {}
  return {
    id := ← field? fields "id".toList d.text? default.id
    dialect := ← field? fields "dialect".toList d.text? default.dialect
    matcher := ← field? fields "matcher".toList d.matcher? default.matcher
    disableDirective :=
      ← field? fields "disable_directive".toList d.optionalText? default.disableDirective }

end Decoder

end StyleBlocks
