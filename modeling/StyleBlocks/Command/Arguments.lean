import StyleBlocks.Text.Basic

/-!
# Command-line arguments

Arguments are **options** with a value each, and **operands**, which are all others. An option has a long
name after two dashes and a letter after one; its value is the next argument, or is attached: after an
equals sign, or directly after the letter. After an argument of two dashes everything is an operand.
Arguments are read from left to right, and the first that is out of place ends the reading.
-/

namespace StyleBlocks.Command

/-- An option that a command takes. -/
structure Flag where
  /-- Its long name. -/
  name : Text
  /-- Its letter. -/
  letter : Char
deriving DecidableEq, Repr

/-- Why reading arguments ends before the last of them. -/
inductive Interruption where
  /-- Help is asked for. -/
  | help
  /-- The arguments are not as they should be. -/
  | misuse
deriving DecidableEq, Repr

/-- Arguments that have been read. -/
structure Arguments where
  /-- The values of options. -/
  values : List (Flag × Text) := []
  /-- The operands in order. -/
  operands : List Text := []
deriving DecidableEq, Repr

namespace Arguments

/-- The value of an option, if it was given. -/
def value? (f : Flag) (a : Arguments) : Option Text :=
  a.values.lookup f

/-- Adds the value of an option, which may be given once. -/
def addValue (f : Flag) (v : Text) (a : Arguments) : Except Interruption Arguments :=
  if (a.value? f).isSome then .error .misuse else .ok { a with values := a.values ++ [(f, v)] }

/-- Adds an operand, of which there may be as many as `limit`. -/
def addOperand (limit : Nat) (v : Text) (a : Arguments) : Except Interruption Arguments :=
  if a.operands.length < limit then .ok { a with operands := a.operands ++ [v] } else .error .misuse

/-- What an argument is by itself. -/
inductive Shape where
  /-- Two dashes. -/
  | separator
  /-- An option with its value. -/
  | attached (f : Flag) (v : Text)
  /-- An option whose value is the next argument. -/
  | detached (f : Flag)
  /-- A request for help. -/
  | help
  /-- An option that there is not. -/
  | unknown
  /-- An operand. -/
  | operand
deriving DecidableEq, Repr

/-- The shape of an argument that starts with two dashes, by what follows these. -/
def longShape (flags : List Flag) (t : Text) : Shape :=
  let name := t.takeWhile (· ≠ '=')
  match flags.find? (·.name = name), t.drop name.length with
  | some f, [] => .detached f
  | some f, _ :: v => .attached f v
  | none, [] => if name = "help".toList then .help else .unknown
  | none, _ => .unknown

/-- The shape of an argument that starts with a dash and a letter, by what follows these. -/
def shortShape (flags : List Flag) (letter : Char) (t : Text) : Shape :=
  match flags.find? (·.letter = letter), t with
  | some f, [] => .detached f
  | some f, '=' :: v => .attached f v
  | some f, v => .attached f v
  | none, _ => if letter = 'h' then .help else .unknown

/-- The shape of an argument. A dash by itself is an operand. -/
def shape (flags : List Flag) : Text → Shape
  | ['-', '-'] => .separator
  | '-' :: '-' :: t => longShape flags t
  | '-' :: c :: t => shortShape flags c t
  | _ => .operand

/-- Reads arguments for a command that takes the given options and at most `limit` operands. -/
def read (flags : List Flag) (limit : Nat) (a : Arguments) :
    List Text → Except Interruption Arguments
  | [] => .ok a
  | t :: ts =>
    match shape flags t, ts with
    | .separator, ts => ts.foldlM (fun a t => a.addOperand limit t) a
    | .attached f v, ts => do read flags limit (← a.addValue f v) ts
    | .detached f, v :: ts =>
      if shape flags v = .operand then do read flags limit (← a.addValue f v) ts
      else .error .misuse
    | .detached _, [] => .error .misuse
    | .help, _ => .error .help
    | .unknown, _ => .error .misuse
    | .operand, ts => do read flags limit (← a.addOperand limit t) ts
termination_by ts => ts.length

end Arguments

end StyleBlocks.Command
