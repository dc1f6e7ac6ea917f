import StyleBlocks.Settings.Decoder
import StyleBlocks.Yaml.Reader

/-!
# Settings in YAML

In YAML a record is a mapping and every scalar is a text, whatever else it may look like. Where nothing is
written, a record keeps its defaults and a list is empty. Only a text that may be missing can be a null.
-/

namespace StyleBlocks

namespace Yaml

/-- The plain scalars that stand for null. -/
def nulls : List Text :=
  ["null", "Null", "NULL", "~"].map String.toList

/-- The tag of null. -/
def nullTag : Text :=
  "tag:yaml.org,2002:null".toList

section Values

variable (anchors : Anchors)

/-- The text of a scalar. -/
def toText? (v : Yaml) : Option Text :=
  match v.resolve? anchors with
  | some (scalar _ _ t) => some t
  | _ => none

/-- The text of a scalar, or none if the scalar is a null. A plain scalar with the tag of null has to be
one, and a plain scalar with another tag is not. -/
def toOptionalText? (v : Yaml) : Option (Option Text) :=
  match v.resolve? anchors with
  | some (scalar true none t) => some (if t = [] ∨ nulls.contains t then none else some t)
  | some (scalar true (some tag) t) =>
    if tag ≠ nullTag then some (some t) else if nulls.contains t then some none else none
  | some (scalar false _ t) => some (some t)
  | _ => none

/-- The list of texts that a value is. -/
def toTexts? (v : Yaml) : Option (List Text) :=
  match v.resolve? anchors with
  | some (scalar true _ []) => some []
  | some (sequence items) => items.mapM (toText? anchors)
  | _ => none

/-- The fields of the record that a value is. -/
def toFields? (v : Yaml) : Option (List (Text × Yaml)) :=
  match v.resolve? anchors with
  | some (scalar true _ []) => some []
  | some (mapping entries) => entries.mapM fun e => (toText? anchors e.1).map (·, e.2)
  | _ => none

/-- How settings are read from YAML. -/
def decoder : Decoder Yaml where
  text? := toText? anchors
  optionalText? := toOptionalText? anchors
  texts? := toTexts? anchors
  fields? _ := toFields? anchors

end Values

end Yaml

namespace Settings

/-- The settings that a YAML text denotes. -/
def readYaml? (t : Text) : Option Settings := do
  let v ← Yaml.read? t
  (Yaml.decoder v.anchors).settings? v

end Settings

end StyleBlocks
