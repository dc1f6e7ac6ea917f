import StyleBlocks.Command.Request

/-!
# Help texts

The text that tells how the program, or one of its commands, is called.
-/

namespace StyleBlocks.Command

/-- A table of two columns, the first wide enough for all its entries. -/
def table (rows : List (String × String)) : Text :=
  let width := (rows.map fun r => r.1.length).foldl max 0
  rows.flatMap fun (left, right) =>
    "  ".toList ++ left.toList ++ List.replicate (width - left.length) ' ' ++ "  ".toList ++
      right.toList ++ ['\n']

/-- A heading with a table under it. -/
def part (heading : String) (rows : List (String × String)) : Text :=
  heading.toList ++ ":\n".toList ++ table rows

namespace Topic

/-- What a command does. -/
def about : Topic → String
  | program => "A tool for inspecting style blocks embedded in tagged templates"
  | inspect => "Print the parsed style blocks"
  | extract => "Print the normalized text of every style block"
  | roundtrip => "Check that printing the parsed file reproduces it"
  | list => "List syntax presets and dialects"
  | help => "Print this message or the help of the given subcommand(s)"

/-- How a command is called. -/
def usage : Topic → String
  | program => "tagstyle <COMMAND>"
  | inspect => "tagstyle inspect [OPTIONS] <path>"
  | extract => "tagstyle extract [OPTIONS] <path>"
  | roundtrip => "tagstyle roundtrip [OPTIONS] <path>"
  | list => "tagstyle list-syntaxes"
  | help => "tagstyle help [COMMAND]..."

/-- What can follow the name of a command, by parts. -/
def parts : Topic → List (String × List (String × String))
  | program =>
    [("Commands",
        [("inspect", inspect.about), ("extract", extract.about), ("roundtrip", roundtrip.about),
          ("list-syntaxes", list.about), ("help", help.about)]),
      ("Options", [("-h, --help", "Print help"), ("-V, --version", "Print version")])]
  | inspect =>
    [path, ("Options", [preset, config,
      ("-f, --format <format>", "Output format (e.g., \x27treeviz\x27, \x27json\x27) [default: treeviz]"),
      helpRow])]
  | extract | roundtrip => [path, ("Options", [preset, config, helpRow])]
  | list => [("Options", [helpRow])]
  | help => [("Arguments", [("[COMMAND]...", "Print help for the subcommand(s)")])]
where
  /-- The part on the host file. -/
  path : String × List (String × String) := ("Arguments", [("<path>", "Path to the JS/TS file")])
  /-- The row on presets. -/
  preset : String × String :=
    ("-s, --syntax <syntax>", "Syntax preset (see list-syntaxes) [default: styled-components]")
  /-- The row on files with settings. -/
  config : String × String :=
    ("-c, --config <config>", "YAML or JSON syntax configuration, overrides --syntax")
  /-- The row on help. -/
  helpRow : String × String := ("-h, --help", "Print help")

/-- The help text of a command. -/
def text (t : Topic) : Text :=
  t.about.toList ++ "\n\nUsage: ".toList ++ t.usage.toList ++ ['\n'] ++
    t.parts.flatMap fun p => '\n' :: part p.1 p.2

end Topic

end StyleBlocks.Command
