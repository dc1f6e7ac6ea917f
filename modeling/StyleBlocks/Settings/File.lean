import StyleBlocks.Settings.Json
import StyleBlocks.Settings.Yaml

/-!
# Settings in files

A file of settings is JSON if its name has the extension `json`, and YAML otherwise. How files are read
is left to the caller, who hands in a function from paths to contents.
-/

namespace StyleBlocks

/-- Why a file cannot be read. -/
inductive FileError where
  /-- There is no such file. -/
  | missing
  /-- The file is not encoded as UTF-8. -/
  | undecodable
  /-- Any other reason, in words. -/
  | other (reason : Text)
deriving DecidableEq, Repr

/-- The reason in words. -/
def FileError.reason : FileError → Text
  | missing => "No such file or directory (os error 2)".toList
  | undecodable => "stream did not contain valid UTF-8".toList
  | other reason => reason

/-- The contents of the files at some paths. -/
abbrev Files := Text → Except FileError Text

/-- The last component of a path. -/
def fileName (path : Text) : Text :=
  (path.reverse.takeWhile (· ≠ '/')).reverse

/-- The extension of a path: what follows the last dot of its last component, if anything precedes that
dot. -/
def extension? (path : Text) : Option Text :=
  let reversed := (fileName path).reverse
  match reversed.dropWhile (· ≠ '.') with
  | '.' :: _ :: _ => some (reversed.takeWhile (· ≠ '.')).reverse
  | _ => none

namespace Settings

/-- The settings that the text of the file at a path denotes. -/
def readAs? (path t : Text) : Option Settings :=
  if extension? path = some "json".toList then readJson? t else readYaml? t

/-- The settings in the file at a path. -/
def load (files : Files) (path : Text) : Except SettingsError Settings :=
  match files path with
  | .error e => .error (.unreadable path e.reason)
  | .ok t =>
    match readAs? path t with
    | some s => .ok s
    | none => .error .malformed

end Settings

end StyleBlocks
