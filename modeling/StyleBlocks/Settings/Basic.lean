import StyleBlocks.Block.Matcher
import StyleBlocks.Catalog
import StyleBlocks.Document.Assembly

/-!
# Settings

**Settings** pair the dialect of the style text with the names by which the templates of one styling
library are recognised. Presets are settings found by name. `Settings.assembly` makes of settings what
host files are read with.
-/

namespace StyleBlocks

/-- The settings for one styling library. -/
structure Settings where
  /-- The name of the library. -/
  id : Text := "styled-components".toList
  /-- The name of the dialect. -/
  dialect : Text := "css".toList
  /-- The names by which templates are recognised. -/
  matcher : Matcher := {}
  /-- The line comment that switches extraction off, if it is not the one made from the name. -/
  disableDirective : Option Text := none
deriving DecidableEq, Repr, Inhabited

/-- Why host files cannot be read as they should. -/
inductive SettingsError where
  /-- The file with the settings cannot be read, for the reason given. -/
  | unreadable (path reason : Text)
  /-- What should be settings is not. -/
  | malformed
  /-- There is no such dialect. -/
  | unknownDialect (name : Text)
  /-- There is no such preset. -/
  | unknownPreset (name : Text)
deriving DecidableEq, Repr

/-- The message for an error. -/
def SettingsError.message : SettingsError → Text
  | unreadable path reason => "Cannot read \x27".toList ++ path ++ "\x27: ".toList ++ reason
  | malformed => "Invalid syntax configuration: these are no settings".toList
  | unknownDialect name => "Dialect \x27".toList ++ name ++ "\x27 not found".toList
  | unknownPreset name => "Syntax \x27".toList ++ name ++ "\x27 not found".toList

namespace Settings

/-- The default settings with another dialect. -/
def ofDialect (dialect : Text) : Settings :=
  { dialect := dialect }

/-- The line comment that switches extraction off for the statement after it. -/
def directive (s : Settings) : Text :=
  s.disableDirective.getD ("tagstyle-".toList ++ s.id ++ "-disable-next-line".toList)

/-- The dialects that are built in, by name. -/
def dialects : Catalog Sheet.Dialect :=
  Catalog.ofList (Sheet.Dialect.builtin.map fun d => (d.name, d))

/-- The settings that are built in, by name. -/
def presets : Catalog Settings :=
  Catalog.ofList
    [("styled-components".toList, ofDialect "css".toList),
      ("styled-components-scss".toList, ofDialect "scss".toList),
      ("styled-components-less".toList, ofDialect "less".toList)]

/-- The settings under a name. -/
def find (presets : Catalog Settings) (name : Text) : Except SettingsError Settings :=
  match presets.get? name with
  | some s => .ok s
  | none => .error (.unknownPreset name)

/-- The dialect under a name. -/
def findDialect (dialects : Catalog Sheet.Dialect) (name : Text) :
    Except SettingsError Sheet.Dialect :=
  match dialects.get? name with
  | some d => .ok d
  | none => .error (.unknownDialect name)

/-- What host files are read with under some settings, if their dialect exists. -/
def assembly (dialects : Catalog Sheet.Dialect) (s : Settings) : Except SettingsError Assembly := do
  let dialect ← findDialect dialects s.dialect
  return { dialect := dialect, matcher := s.matcher, directive := s.directive }

end Settings

end StyleBlocks
