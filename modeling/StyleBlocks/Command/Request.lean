import StyleBlocks.Command.Arguments

/-!
# Requests

What the program can be asked for on its command line, and how its arguments are read as a request.
-/

namespace StyleBlocks.Command

/-- Which file to read, and with which settings. -/
structure Target where
  /-- The path of the host file. -/
  path : Text
  /-- The name of the preset. -/
  preset : Text := "styled-components".toList
  /-- The path of the file with the settings, which are taken instead of the preset. -/
  config : Option Text := none
deriving DecidableEq, Repr

/-- What help is about. -/
inductive Topic where
  /-- The program. -/
  | program
  /-- Showing blocks. -/
  | inspect
  /-- Extracting style text. -/
  | extract
  /-- Checking that printing gives the source back. -/
  | roundtrip
  /-- Listing what there is to choose from. -/
  | list
  /-- Help itself. -/
  | help
deriving DecidableEq, Repr

/-- What the program is asked for. -/
inductive Request where
  /-- To show the blocks of a file in a format. -/
  | inspect (t : Target) (format : Text)
  /-- To show the style text of all blocks of a file. -/
  | extract (t : Target)
  /-- To check that printing a file gives it back. -/
  | roundtrip (t : Target)
  /-- To list the presets and the dialects. -/
  | list
  /-- To tell its version. -/
  | version
  /-- To give help. -/
  | help (topic : Topic)
deriving DecidableEq, Repr

/-- The option that names a preset. -/
def presetFlag : Flag := ⟨"syntax".toList, 's'⟩

/-- The option that names a file with settings. -/
def configFlag : Flag := ⟨"config".toList, 'c'⟩

/-- The option that names a format. -/
def formatFlag : Flag := ⟨"format".toList, 'f'⟩

namespace Topic

/-- The command with a name. -/
def find? (name : Text) : Option Topic :=
  [("inspect", inspect), ("extract", extract), ("roundtrip", roundtrip), ("list-syntaxes", list),
    ("help", help)].findSome? fun (n, t) => if n.toList = name then some t else none

/-- The options of a command. -/
def flags : Topic → List Flag
  | inspect => [presetFlag, configFlag, formatFlag]
  | extract | roundtrip => [presetFlag, configFlag]
  | program | list | help => []

/-- The greatest number of operands of a command. -/
def operandLimit : Topic → Nat
  | inspect | extract | roundtrip => 1
  | program | list | help => 0

/-- The topic that names of commands lead to, each a command of the one before it. Commands are commands of
the program alone, so that two names lead nowhere. -/
def ofNames? : List Text → Option Topic
  | [] => some program
  | [name] => find? name
  | _ => none

end Topic

/-- The target that arguments name. -/
def Arguments.target? (a : Arguments) : Option Target := do
  let default : Target := { path := ← a.operands.head? }
  return { default with
    preset := (a.value? presetFlag).getD default.preset
    config := a.value? configFlag }

namespace Request

/-- The request that the arguments of a command make, or `none` if they are not as they should be. -/
def ofArguments? (topic : Topic) (a : Arguments) : Option Request :=
  match topic with
  | .inspect => do
    return inspect (← a.target?) ((a.value? formatFlag).getD "treeviz".toList)
  | .extract => a.target?.map extract
  | .roundtrip => a.target?.map roundtrip
  | .list => some list
  | .program | .help => none

/-- The request that a command and its arguments make, or `none` if they are not as they should be. What
follows the command for help is read as names alone, so that no option is among them. -/
def ofCommand? (topic : Topic) (args : List Text) : Option Request :=
  if topic = .help then (Topic.ofNames? args).map help
  else
    match Arguments.read topic.flags topic.operandLimit {} args with
    | .ok a => ofArguments? topic a
    | .error .help => some (help topic)
    | .error .misuse => none

/-- The request that the arguments of the program make, or `none` if they are not as they should be. -/
def read? : List Text → Option Request
  | [] => none
  | name :: args =>
    match name with
    | '-' :: 'V' :: _ => some version
    | '-' :: 'h' :: _ => some (help .program)
    | name =>
      if name = "--version".toList then some version
      else if name = "--help".toList then some (help .program)
      else do ofCommand? (← Topic.find? name) args

/-- The paths of the files that answering a request can need. -/
def paths : Request → List Text
  | inspect t _ | extract t | roundtrip t => t.config.toList ++ [t.path]
  | _ => []

end Request

end StyleBlocks.Command
