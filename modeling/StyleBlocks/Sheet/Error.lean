import StyleBlocks.Location.Basic

/-!
# Errors of style text

The ways in which style text can be malformed, with the position at which it is, and their messages.
-/

namespace StyleBlocks.Sheet

/-- Why style text cannot be parsed. -/
inductive ParseError where
  /-- The block that opens at this position does not close. -/
  | unclosedBlock (position : Position)
  /-- A brace closes at this position but no block is open. -/
  | unexpectedClose (position : Position)
  /-- The statement that starts with this word is neither a rule nor a declaration. -/
  | unknownWord (word : Text) (position : Position)
  /-- The comment that starts at this position does not end. -/
  | unclosedComment (position : Position)
  /-- The string that starts at this position does not end. -/
  | unclosedString (position : Position)
  /-- The text at this position is no token. -/
  | unexpectedText (text : Text) (position : Position)
deriving DecidableEq, Repr

namespace ParseError

/-- The position of an error. -/
def position : ParseError → Position
  | unclosedBlock p | unexpectedClose p | unknownWord _ p | unclosedComment p | unclosedString p
  | unexpectedText _ p => p

/-- What is wrong, without the position. -/
def description : ParseError → Text
  | unclosedBlock _ => "Unclosed block".toList
  | unexpectedClose _ => "Unexpected \x7d".toList
  | unknownWord w _ => "Unknown word \x27".toList ++ w ++ ['\x27']
  | unclosedComment _ => "Unclosed comment".toList
  | unclosedString _ => "Unclosed string".toList
  | unexpectedText t _ => "Unexpected \x27".toList ++ t ++ ['\x27']

/-- The message for an error. -/
def message (e : ParseError) : Text :=
  e.position.render ++ ": ".toList ++ e.description

end ParseError

end StyleBlocks.Sheet
