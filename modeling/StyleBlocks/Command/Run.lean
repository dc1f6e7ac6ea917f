import StyleBlocks.Command.Help
import StyleBlocks.Document.Printing
import StyleBlocks.Rendering.Format
import StyleBlocks.Settings.File

/-!
# Answering requests

`Request.answer` answers a request from the contents of files. The settings are made ready before the
host file is read, so that their errors come first.
-/

namespace StyleBlocks.Command

/-- What the program does in the end. -/
structure Outcome where
  /-- Its exit code. -/
  exit : Nat := 0
  /-- What it writes to its output. -/
  output : Text := []
  /-- What it writes to its error output. -/
  errors : Text := []
deriving DecidableEq, Repr

namespace Outcome

/-- A text as a line. -/
def line (t : Text) : Text :=
  t ++ ['\n']

/-- The program fails with a message. -/
def failure (message : Text) : Outcome :=
  { exit := 1, errors := line ("Error: ".toList ++ message) }

/-- The program is called in a way that it does not understand. -/
def misuse : Outcome :=
  { exit := 2, errors := "Usage: ".toList ++ line Topic.program.usage.toList }

end Outcome

/-- What the host file of a target is read with. -/
def Target.assembly (files : Files) (t : Target) : Except SettingsError Assembly := do
  let settings ← match t.config with
    | some path => Settings.load files path
    | none => Settings.find Settings.presets t.preset
  settings.assembly Settings.dialects

/-- Answers from the assembly and the source of a target, or fails if there is none. -/
def Target.withSource (files : Files) (t : Target) (answer : Assembly → Text → Outcome) : Outcome :=
  match t.assembly files with
  | .error e => .failure e.message
  | .ok a =>
    match files t.path with
    | .error e => .failure ("reading file: ".toList ++ e.reason)
    | .ok source => answer a source

/-- Shows the blocks of a source in a format, and its diagnostics as errors. -/
def inspect (path format : Text) (a : Assembly) (source : Text) : Outcome :=
  match a.parse (some path) source with
  | .error e => .failure e.message
  | .ok d =>
    let diagnostics := d.diagnostics.flatMap fun g => Outcome.line g.render
    let outcome : Outcome := match d.showAs Format.builtin format with
      | .error e => .failure e.message
      | .ok t => { output := if t.getLast? = some '\n' then t else Outcome.line t }
    { outcome with errors := diagnostics ++ outcome.errors }

/-- Shows the style text of all blocks of a source, each after the place of its block. -/
def extract (a : Assembly) (source : Text) : Outcome :=
  match a.normalizedBlocks source with
  | .error e => .failure e.message
  | .ok blocks =>
    { output := blocks.flatMap fun b =>
        Outcome.line ("/* ".toList ++ b.range.render ++ " */".toList) ++ Outcome.line b.text }

/-- Checks that printing the document of a source gives the source back. -/
def roundtrip (path : Text) (a : Assembly) (source : Text) : Outcome :=
  match a.parse none source with
  | .error e => .failure e.message
  | .ok d =>
    if d.render = source then
      { output := Outcome.line (path ++ ": ".toList ++ Text.ofNat d.blocks.length ++
          " block(s), ".toList ++ Text.ofNat d.skipped.length ++ " skipped, round trip ok".toList) }
    else
      { exit := 1
        errors := Outcome.line (path ++ ": printed output differs from the source".toList) }

/-- The lines on a preset. -/
def presetLines (name : Text) (s : Settings) : Text :=
  Outcome.line ("  ".toList ++ name) ++
    Outcome.line ("    dialect: ".toList ++ s.dialect ++ ", directive: ".toList ++ s.directive)

/-- The line on a dialect; names are padded to six characters. -/
def dialectLine (name : Text) (d : Sheet.Dialect) : Text :=
  Outcome.line ("  ".toList ++ name ++ List.replicate (6 - name.length) ' ' ++ ' ' :: d.description)

/-- Lists the presets and the dialects that are built in. -/
def list : Outcome where
  output :=
    "Available syntaxes:\n\n".toList ++
      (Settings.presets.entries.flatMap fun e => presetLines e.1 e.2) ++
      "\nAvailable dialects:\n\n".toList ++
      Settings.dialects.entries.flatMap fun e => dialectLine e.1 e.2

/-- The name of the program and its version. -/
def version : Text :=
  "tagstyle 0.1.0".toList

/-- Answers a request. -/
def Request.answer (files : Files) : Request → Outcome
  | .inspect t format => t.withSource files (Command.inspect t.path format)
  | .extract t => t.withSource files Command.extract
  | .roundtrip t => t.withSource files (Command.roundtrip t.path)
  | .list => Command.list
  | .version => { output := Outcome.line Command.version }
  | .help topic => { output := topic.text }

/-- Runs the program. -/
def run (files : Files) (args : List Text) : Outcome :=
  match Request.read? args with
  | some r => r.answer files
  | none => .misuse

end StyleBlocks.Command
