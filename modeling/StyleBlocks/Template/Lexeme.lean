import StyleBlocks.Location.Basic
import StyleBlocks.Text.Comment

/-!
# Lexemes of host code

Host code is cut into **lexemes**, always taking the longest that fits. Only the distinctions that
finding templates needs are made; a template's body and a regular expression depend on what stands
around them and are no lexemes. Text that no lexeme fits becomes an erroneous lexeme: one character,
or all of a string or a block comment that has no end.

## Main statements

* `Lexeme.read_text_append_rest`: a lexeme and what is left after it are the text it was read from.
* `Lexeme.flatten_readAll`: the lexemes of a text, put together, are that text.
-/

namespace StyleBlocks.Template

/-- The kinds of host lexemes. -/
inductive LexemeKind where
  /-- Spaces and tabs within a line. -/
  | blanks
  /-- One line break. -/
  | lineBreak
  /-- A comment up to the end of its line. -/
  | lineComment
  /-- A comment between slash-star and star-slash. -/
  | blockComment
  /-- A name or keyword. -/
  | identifier
  /-- A name after a number sign. -/
  | privateName
  /-- A numeral. -/
  | number
  /-- A quoted string. -/
  | string
  /-- A backtick. -/
  | backtick
  /-- An opening parenthesis. -/
  | openParen
  /-- A closing parenthesis. -/
  | closeParen
  /-- An opening square bracket. -/
  | openBracket
  /-- A closing square bracket. -/
  | closeBracket
  /-- An opening brace. -/
  | openBrace
  /-- A closing brace. -/
  | closeBrace
  /-- A dot. -/
  | dot
  /-- A question mark and a dot. -/
  | optionalChain
  /-- Three dots. -/
  | spread
  /-- A semicolon. -/
  | semicolon
  /-- A comma. -/
  | comma
  /-- A slash, or a slash and an equals sign. -/
  | slash
  /-- A less-than sign. -/
  | lessThan
  /-- A greater-than sign. -/
  | greaterThan
  /-- An equals sign and a greater-than sign. -/
  | arrow
  /-- A run of other operator characters. -/
  | operator
deriving DecidableEq, Repr

namespace LexemeKind

/-- Blanks, line breaks and comments carry no code. -/
def isTrivia : LexemeKind → Bool
  | blanks | lineBreak | lineComment | blockComment => true
  | _ => false

/-- The kinds after which a line break can end a statement. -/
def endsExpression : LexemeKind → Bool
  | identifier | privateName | number | string | closeParen | closeBracket | closeBrace
  | backtick => true
  | _ => false

/-- The kinds that carry a statement on when they begin a line. -/
def continuesStatement : LexemeKind → Bool
  | dot | optionalChain | operator | arrow | openParen | openBracket | backtick | comma | lessThan
  | greaterThan | slash => true
  | _ => false

end LexemeKind

/-! ### Character classes -/

/-- Blanks that do not break a line. -/
def isInlineBlank (c : Char) : Bool :=
  c == ' ' || c == '\t' || c == '\x0b' || c == '\x0c'

/-- Characters that can begin a name. -/
def isNameStart (c : Char) : Bool :=
  c.isAlpha || c == '_' || c == '$'

/-- Characters that can continue a name. -/
def isNamePart (c : Char) : Bool :=
  c.isAlphanum || c == '_' || c == '$'

/-- Characters that can continue the fraction of a numeral. -/
def isFractionPart (c : Char) : Bool :=
  c.isAlphanum || c == '_'

/-- Characters that can continue a numeral. -/
def isNumberPart (c : Char) : Bool :=
  isFractionPart c || c == '.'

/-- Characters that operators are made of. -/
def isOperatorPart (c : Char) : Bool :=
  "-+*%=&|^!~?:@".toList.contains c

/-- Characters that end a line. -/
def isLineEnd (c : Char) : Bool :=
  c == '\n' || c == '\r'

/-! ### Longer lexemes -/

/-- The longest run of characters that can stand inside a string closed by `quote`. A backslash
takes the next character with it, a carriage return together with the line feed after it. A
backslash before a carriage return that nothing can follow ends the run by itself, and so does one
at the end of the text. -/
def stringRun (quote : Char) : Text → Text
  | [] => []
  | '\\' :: '\r' :: '\n' :: t => '\\' :: '\r' :: '\n' :: stringRun quote t
  | ['\\', '\r'] => ['\\']
  | '\\' :: '\r' :: '\r' :: _ => ['\\']
  | '\\' :: c :: t => '\\' :: c :: stringRun quote t
  | ['\\'] => ['\\']
  | c :: t => if c == quote || isLineEnd c then [] else c :: stringRun quote t

/-- What a string goes on with is a front of the text. -/
theorem stringRun_isPrefix (quote : Char) (t : Text) : stringRun quote t <+: t := by
  fun_induction stringRun quote t <;> simp_all [List.cons_prefix_cons]

/-! ### Lexemes -/

/-- A **lexeme**: a piece of host code and its kind, which is missing if no lexeme fits. -/
structure Lexeme where
  /-- The kind, if the piece is a lexeme of the host language. -/
  kind : Option LexemeKind
  /-- The piece of code. -/
  text : Text
deriving DecidableEq, Repr

namespace Lexeme

/-- What follows the first character in the lexeme that `c` begins: its kind and the rest of its
text, which `t` starts with. -/
def body (c : Char) (t : Text) : Option LexemeKind × Text :=
  if isInlineBlank c then (some .blanks, t.takeWhile isInlineBlank)
  else if isNameStart c then (some .identifier, t.takeWhile isNamePart)
  else if c.isDigit then (some .number, t.takeWhile isNumberPart)
  else match c, t with
  | '\r', '\n' :: _ => (some .lineBreak, ['\n'])
  | '\r', _ => (some .lineBreak, [])
  | '\n', _ => (some .lineBreak, [])
  | '/', '/' :: u => (some .lineComment, '/' :: u.takeWhile (fun d => !isLineEnd d))
  | '/', '*' :: u =>
    match Text.commentRun u with
    | some r => (some .blockComment, '*' :: r)
    | none => (none, '*' :: u)
  | '/', '=' :: _ => (some .slash, ['='])
  | '/', _ => (some .slash, [])
  | '#', d :: u =>
    if isNameStart d then (some .privateName, d :: u.takeWhile isNamePart) else (none, [])
  | '.', '.' :: '.' :: _ => (some .spread, ['.', '.'])
  | '.', d :: u =>
    if d.isDigit then (some .number, d :: u.takeWhile isFractionPart) else (some .dot, [])
  | '.', [] => (some .dot, [])
  | '?', '.' :: _ => (some .optionalChain, ['.'])
  | '=', '>' :: _ => (some .arrow, ['>'])
  | '\x60', _ => (some .backtick, [])
  | '(', _ => (some .openParen, [])
  | ')', _ => (some .closeParen, [])
  | '[', _ => (some .openBracket, [])
  | ']', _ => (some .closeBracket, [])
  | '{', _ => (some .openBrace, [])
  | '}', _ => (some .closeBrace, [])
  | ';', _ => (some .semicolon, [])
  | ',', _ => (some .comma, [])
  | '<', _ => (some .lessThan, [])
  | '>', _ => (some .greaterThan, [])
  | c, t =>
    if c == '\x22' || c == '\x27' then
      let run := stringRun c t
      if run ++ [c] <+: t then (some .string, run ++ [c]) else (none, run)
    else if isOperatorPart c then (some .operator, t.takeWhile isOperatorPart)
    else (none, [])

/-- The lexeme that the character `c` begins in front of the text `t`. -/
def read (c : Char) (t : Text) : Lexeme where
  kind := (body c t).1
  text := c :: (body c t).2

/-- What is left of `t` after the lexeme that `c` begins in front of it. -/
def rest (c : Char) (t : Text) : Text :=
  t.drop (body c t).2.length

/-- A lexeme goes on with a front of the text. -/
theorem body_isPrefix (c : Char) (t : Text) : (body c t).2 <+: t := by
  unfold body
  split
  · exact List.takeWhile_prefix _
  split
  · exact List.takeWhile_prefix _
  split
  · exact List.takeWhile_prefix _
  split <;> try simp only [List.nil_prefix, List.cons_prefix_cons, List.takeWhile_prefix, true_and]
  · split
    · next h => simpa [List.cons_prefix_cons] using Text.commentRun_isPrefix h
    · simp
  · split <;> simp [List.cons_prefix_cons, List.takeWhile_prefix]
  · split <;> simp [List.cons_prefix_cons, List.takeWhile_prefix]
  · split
    · split
      · assumption
      · exact stringRun_isPrefix _ _
    · split
      · exact List.takeWhile_prefix _
      · exact List.nil_prefix

/-- A lexeme and what is left after it are the text it was read from. -/
theorem read_text_append_rest (c : Char) (t : Text) : (read c t).text ++ rest c t = c :: t := by
  simpa [read, rest] using List.prefix_iff_eq_append.1 (body_isPrefix c t)

/-- A lexeme leaves no more text than is behind its first character. -/
theorem length_rest_le (c : Char) (t : Text) : (rest c t).length ≤ t.length := by
  simp [rest]

/-- The lexemes of a text. -/
def readAll : Text → List Lexeme
  | [] => []
  | c :: t => read c t :: readAll (rest c t)
termination_by t => t.length
decreasing_by exact Nat.lt_succ_of_le (length_rest_le c t)

/-- The lexemes of a text, put together, are that text. -/
theorem flatten_readAll (t : Text) : ((readAll t).map Lexeme.text).flatten = t := by
  fun_induction readAll t with
  | case1 => rfl
  | case2 c t ih => simpa [ih] using read_text_append_rest c t

/-- Lexemes with the bytes they cover, when the first of them starts at `offset`. -/
def withSpans (offset : Nat) : List Lexeme → List (Lexeme × Span)
  | [] => []
  | l :: ls =>
    let stop := offset + Text.byteSize l.text
    (l, ⟨offset, stop⟩) :: withSpans stop ls

end Lexeme

end StyleBlocks.Template
