import StyleBlocks.Location.LineMap
import StyleBlocks.Sheet.Error
import StyleBlocks.Text.Comment

/-!
# Tokens of style text

Style text is cut into **tokens**, always taking the longest that fits. One set of tokens serves
every dialect. Tokens carry their text, so nothing is lost: put together they are the text they were
cut from. Text that is no token is an error. It is one character, or all of a string, a comment, an
address or an interpolation that has no end.

## Main statements

* `Token.cut_append_rest`: a piece and what is left after it are the text it was cut from.
* `Token.texts_of_tokenize`: the tokens of a text, put together, are that text.
-/

namespace StyleBlocks.Sheet

/-- The kinds of tokens. -/
inductive TokenKind where
  /-- Blanks and line breaks. -/
  | space
  /-- A comment between slash-star and star-slash. -/
  | comment
  /-- A comment up to the end of its line. -/
  | lineComment
  /-- A quoted string. -/
  | string
  /-- An address: the word `url` with parentheses around text without quotes. -/
  | url
  /-- An opening brace. -/
  | openCurly
  /-- A closing brace. -/
  | closeCurly
  /-- A semicolon. -/
  | semicolon
  /-- A colon. -/
  | colon
  /-- An opening parenthesis. -/
  | openParen
  /-- A closing parenthesis. -/
  | closeParen
  /-- An opening square bracket. -/
  | openSquare
  /-- A closing square bracket. -/
  | closeSquare
  /-- An at sign with the name after it. -/
  | atWord
  /-- Braces after a number sign or an at sign, with what is between them. -/
  | interpolation
  /-- A run of all other characters. -/
  | word
  /-- A slash or a number sign by itself. -/
  | delimiter
deriving DecidableEq, Repr

/-- A **token** of style text. -/
structure Token where
  /-- The kind. -/
  kind : TokenKind
  /-- The text. -/
  text : Text
  /-- The offset of the first byte. -/
  start : Nat
deriving DecidableEq, Repr

namespace Token

/-- The offset just past the last byte. -/
def stop (t : Token) : Nat :=
  t.start + Text.byteSize t.text

/-- The bytes of a token. -/
def span (t : Token) : Span :=
  ⟨t.start, t.stop⟩

/-- Whether a token is made of blanks. -/
def isSpace (t : Token) : Bool :=
  t.kind = .space

/-- The texts of tokens, put together. -/
def texts (ts : List Token) : Text :=
  ts.flatMap Token.text

@[simp] theorem texts_nil : texts [] = [] := rfl

/-- The text of a token stands in front of those behind it. -/
@[simp] theorem texts_cons (t : Token) (ts : List Token) : texts (t :: ts) = t.text ++ texts ts :=
  rfl

/-- The texts of tokens are put together token by token. -/
@[simp] theorem texts_append (ts us : List Token) : texts (ts ++ us) = texts ts ++ texts us := by
  simp [texts]

/-! ### Character classes -/

/-- Blanks of style text. -/
def isStyleBlank (c : Char) : Bool :=
  c == ' ' || c == '\t' || c == '\n' || c == '\r' || c == '\x0c'

/-- Characters that can follow an at sign in its word. -/
def isAtWordPart (c : Char) : Bool :=
  c.isAlphanum || c == '_' || c == '-'

/-- Characters that words are made of, escape pairs aside. -/
def isWordPart (c : Char) : Bool :=
  !(isStyleBlank c || "\x7b\x7d;:()[]\x22\x27/@#\\".toList.contains c)

/-- Whether two characters are the same letter, upper or lower case. -/
def sameLetter (c letter : Char) : Bool :=
  c.toLower == letter

/-! ### Longer tokens -/

/-- The longest run of characters that can stand inside a string closed by `quote`; a backslash takes
the next character with it. -/
def stringRun (quote : Char) : Text → Text
  | [] => []
  | ['\\'] => ['\\']
  | '\\' :: c :: t => '\\' :: c :: stringRun quote t
  | c :: t => if c == quote || c == '\n' then [] else c :: stringRun quote t

/-- The longest run of word characters and escape pairs. -/
def wordRun : Text → Text
  | [] => []
  | '\\' :: c :: t => '\\' :: c :: wordRun t
  | c :: t => if isWordPart c then c :: wordRun t else []

/-- The inside of an address: anything but quotes, a closing parenthesis and line feeds. -/
def urlRun (t : Text) : Text :=
  t.takeWhile fun c => !(c == ')' || c == '\x22' || c == '\x27' || c == '\n')

/-- The inside of an interpolation: anything but a closing brace and line feeds. -/
def interpolationRun (t : Text) : Text :=
  t.takeWhile fun c => !(c == '}' || c == '\n')

/-- What a string goes on with is a front of the text. -/
theorem stringRun_isPrefix (quote : Char) (t : Text) : stringRun quote t <+: t := by
  fun_induction stringRun quote t <;> simp_all [List.cons_prefix_cons]

/-- What a word goes on with is a front of the text. -/
theorem wordRun_isPrefix (t : Text) : wordRun t <+: t := by
  fun_induction wordRun t <;> simp_all [List.cons_prefix_cons]

/-! ### Pieces -/

/-- A run, closed by the character `close` if that follows it in `t`: it is of the given kind then,
and no token otherwise. -/
def closed (kind : TokenKind) (run : Text) (close : Char) (t : Text) : Option TokenKind × Text :=
  if run ++ [close] <+: t then (some kind, run ++ [close]) else (none, run)

/-- What follows the first character in the piece that `c` begins: the kind of the piece, which is
missing if it is no token, and the rest of its text, which `t` starts with. -/
def body (c : Char) (t : Text) : Option TokenKind × Text :=
  if isStyleBlank c then (some .space, t.takeWhile isStyleBlank)
  else match c, t with
  | '/', '*' :: u =>
    match Text.commentRun u with
    | some r => (some .comment, '*' :: r)
    | none => (none, '*' :: u)
  | '/', '/' :: u => (some .lineComment, '/' :: u.takeWhile (· ≠ '\n'))
  | '/', _ => (some .delimiter, [])
  | '#', '{' :: u => closed .interpolation ('{' :: interpolationRun u) '}' t
  | '#', _ => (some .delimiter, [])
  | '@', '{' :: u => closed .interpolation ('{' :: interpolationRun u) '}' t
  | '@', t => (some .atWord, t.takeWhile isAtWordPart)
  | '{', _ => (some .openCurly, [])
  | '}', _ => (some .closeCurly, [])
  | ';', _ => (some .semicolon, [])
  | ':', _ => (some .colon, [])
  | '(', _ => (some .openParen, [])
  | ')', _ => (some .closeParen, [])
  | '[', _ => (some .openSquare, [])
  | ']', _ => (some .closeSquare, [])
  | '\x22', t => closed .string (stringRun '\x22' t) '\x22' t
  | '\x27', t => closed .string (stringRun '\x27' t) '\x27' t
  | '\\', d :: u => (some .word, d :: wordRun u)
  | '\\', [] => (none, [])
  | c, r :: l :: '(' :: u =>
    if sameLetter c 'u' ∧ sameLetter r 'r' ∧ sameLetter l 'l' then
      closed .url (r :: l :: '(' :: urlRun u) ')' t
    else (some .word, wordRun t)
  | _, t => (some .word, wordRun t)

/-- What is closed goes on with a front of the text. -/
theorem closed_isPrefix {kind : TokenKind} {run : Text} {close : Char} {t : Text}
    (h : run <+: t) : (closed kind run close t).2 <+: t := by
  rw [closed]
  split
  · assumption
  · exact h

/-- A token goes on with a front of the text. -/
theorem body_isPrefix (c : Char) (t : Text) : (body c t).2 <+: t := by
  unfold body
  split
  · exact List.takeWhile_prefix _
  split <;> try simp only [List.nil_prefix, List.cons_prefix_cons, List.takeWhile_prefix, true_and]
  · split
    · next h => simpa [List.cons_prefix_cons] using Text.commentRun_isPrefix h
    · simp
  · exact closed_isPrefix (by simp [List.cons_prefix_cons, interpolationRun, List.takeWhile_prefix])
  · exact closed_isPrefix (by simp [List.cons_prefix_cons, interpolationRun, List.takeWhile_prefix])
  · exact closed_isPrefix (stringRun_isPrefix _ _)
  · exact closed_isPrefix (stringRun_isPrefix _ _)
  · exact wordRun_isPrefix _
  · split
    · exact closed_isPrefix (by simp [List.cons_prefix_cons, urlRun, List.takeWhile_prefix])
    · exact wordRun_isPrefix _
  · exact wordRun_isPrefix _

/-- The text of the piece that `c` begins in front of `t`. -/
def cut (c : Char) (t : Text) : Text :=
  c :: (body c t).2

/-- What is left of `t` after the piece that `c` begins in front of it. -/
def rest (c : Char) (t : Text) : Text :=
  t.drop (body c t).2.length

/-- A piece and what is left after it are the text it was cut from. -/
theorem cut_append_rest (c : Char) (t : Text) : cut c t ++ rest c t = c :: t := by
  simpa [cut, rest] using List.prefix_iff_eq_append.1 (body_isPrefix c t)

/-- A token leaves no more text than is behind its first character. -/
theorem length_rest_le (c : Char) (t : Text) : (rest c t).length ≤ t.length := by
  simp [rest]

/-- The error for a piece that is no token. -/
def errorFor (piece : Text) (p : Position) : ParseError :=
  match piece with
  | '/' :: '*' :: _ => .unclosedComment p
  | '\x22' :: _ | '\x27' :: _ => .unclosedString p
  | piece => .unexpectedText piece p

/-- The tokens of a text whose first character is at the given offset of the text that `lines`
maps. -/
def tokenizeFrom (lines : LineMap) (offset : Nat) : Text → Except ParseError (List Token)
  | [] => .ok []
  | c :: t =>
    have := length_rest_le c t
    match (body c t).1 with
    | none => .error (errorFor (cut c t) (lines.position offset))
    | some kind =>
      (tokenizeFrom lines (offset + Text.byteSize (cut c t)) (rest c t)).map
        (⟨kind, cut c t, offset⟩ :: ·)
termination_by t => t.length

/-- The tokens of a text, or the error for the first piece that is none. -/
def tokenize (t : Text) : Except ParseError (List Token) :=
  tokenizeFrom (LineMap.ofText t) 0 t

/-- The tokens of a text make it up, from any offset on. -/
theorem texts_of_tokenizeFrom {lines : LineMap} {offset : Nat} {t : Text} {ts : List Token}
    (h : tokenizeFrom lines offset t = .ok ts) : texts ts = t := by
  fun_induction tokenizeFrom lines offset t generalizing ts with
  | case1 => cases h; rfl
  | case2 => contradiction
  | case3 offset c t _ kind _ ih =>
    cases hr : tokenizeFrom lines (offset + Text.byteSize (cut c t)) (rest c t) with
    | error e => simp [hr, Except.map] at h
    | ok us =>
      simp only [hr, Except.map, Except.ok.injEq] at h
      subst h
      simpa [ih hr] using cut_append_rest c t

/-- The tokens of a text, put together, are that text. -/
theorem texts_of_tokenize {t : Text} {ts : List Token} (h : tokenize t = .ok ts) : texts ts = t :=
  texts_of_tokenizeFrom h

end Token

end StyleBlocks.Sheet
