import StyleBlocks.Location.LineMap
import StyleBlocks.Template.Nesting
import StyleBlocks.Template.RawText

/-!
# Finding templates

`findTemplates` reads host code once from left to right and reports its tagged templates. The code
is read lexeme by lexeme under the nesting of `StyleBlocks.Template.Nesting`; the literal parts of
templates are read as raw text, and three things are skipped whole because no lexeme describes them:
a regular expression where one can stand, and type arguments between a tag and its template.

Reading fails only on a template that does not close, for without the structure of its templates
nothing of the code is known.
-/

namespace StyleBlocks.Template

/-- Why host code cannot be read. -/
inductive ScanError where
  /-- The template whose opening backtick is at the given place does not close. -/
  | unterminated (offset : Nat) (position : Position)
deriving DecidableEq, Repr

/-- The message for an error. -/
def ScanError.message : ScanError → Text
  | unterminated _ p => "Unterminated template literal starting at ".toList ++ p.render

/-! ### Regular expressions and type arguments -/

/-- The number of characters from the opening slash of a regular expression, that excluded, up to its
closing slash and flags, or `none` if it does not close on its line. In a class between square
brackets a slash closes nothing. -/
def regexLength (t : Text) : Option Nat :=
  if t.head? = some '/' then none else go false t
where
  /-- The same inside a regular expression; `inClass` tells if a class is open. -/
  go (inClass : Bool) : Text → Option Nat
    | [] => none
    | ['\\'] => none
    | '\\' :: _ :: t => (go inClass t).map (· + 2)
    | '/' :: t =>
      if inClass then (go inClass t).map (· + 1)
      else some (1 + (t.takeWhile Char.isAlpha).length)
    | '[' :: t => (go true t).map (· + 1)
    | ']' :: t => (go false t).map (· + 1)
    | c :: t => if isLineEnd c then none else (go inClass t).map (· + 1)

/-- The farthest that type arguments can reach, in bytes. -/
def typeArgumentsLimit : Nat := 512

/-- The number of characters from the opening angle bracket of type arguments, that excluded, up to
the backtick that follows their closing bracket, or `none` if no backtick does. Brackets are counted;
the one of an arrow is none. -/
def typeArgumentsLength (t : Text) : Option Nat :=
  go 1 '<' 0 t
where
  /-- The same at byte `i`, after the character `previous`, with `depth` brackets open. -/
  go (depth : Nat) (previous : Char) (i : Nat) : Text → Option Nat
    | [] => none
    | c :: t =>
      if typeArgumentsLimit < i then none
      else if c = '<' then (go (depth + 1) c (i + c.utf8Size) t).map (· + 1)
      else if c = '>' ∧ previous ≠ '=' then
        if depth = 1 then
          let gap := (t.takeWhile isBlank).length
          if (t.drop gap).head? = some '\x60' then some (1 + gap) else none
        else (go (depth - 1) c (i + c.utf8Size) t).map (· + 1)
      else if c = '\x60' then none
      else (go depth c (i + c.utf8Size) t).map (· + 1)

/-! ### Reading -/

/-- How far reading has come. -/
structure Reading where
  /-- The nesting at this place. -/
  nesting : Nesting
  /-- The offset of this place. -/
  offset : Nat
  /-- The code that is left. -/
  rest : Text

/-- Reads on in a template, from the first character of a literal part up to the end of the template
or to its next hole. -/
def readLiteral (lines : LineMap) (u : Unclosed) (r : Reading) : Except ScanError Reading :=
  match RawText.readSegment r.rest with
  | none => .error (.unterminated u.opening (lines.position u.opening))
  | some s =>
    let span : Span := ⟨r.offset, r.offset + Text.byteSize s.raw⟩
    let quasi : Quasi := ⟨span, lines.position span.start, lines.position span.stop, s.raw⟩
    let u := { u with quasis := u.quasis ++ [quasi] }
    match s.delimiter with
    | .backtick => .ok ⟨r.nesting.closeTemplate u (span.stop + 1), span.stop + 1, s.rest⟩
    | .hole => .ok ⟨r.nesting.openHole u (span.stop + 2), span.stop + 2, s.rest⟩

/-- Drops `n` characters of the code that is left. -/
def Reading.skip (n : Nat) (r : Reading) : Reading :=
  { r with offset := r.offset + Text.byteSize (r.rest.take n), rest := r.rest.drop n }

/-- Acts on a lexeme that is not trivia, at the offset `start` and before the place `r`. -/
def readCode (lines : LineMap) (k : LexemeKind) (text : Text) (start : Nat) (r : Reading) :
    Except ScanError Reading :=
  let n := r.nesting.modifyStatement (Statement.meet k)
  let settled (n : Nesting) : Except ScanError Reading :=
    .ok { r with nesting := n.settle k text }
  match k with
  | .identifier => settled (n.identifier text start)
  | .privateName => settled (n.privateName text)
  | .dot | .optionalChain => settled { n with afterDot := n.chain.isSome }
  | .openParen => settled (n.openLevel (.paren n.chain))
  | .openBracket => settled (n.openLevel (.bracket n.chain))
  | .openBrace => settled (n.openLevel .brace)
  | .closeParen | .closeBracket => settled (n.closeLevel k)
  | .closeBrace =>
    match n.levels with
    | { opener := .hole u holeStart, .. } :: ls =>
      let hole : Hole := ⟨⟨holeStart, start⟩, lines.position holeStart⟩
      readLiteral lines { u with holes := u.holes ++ [hole] } { r with nesting := { n with levels := ls } }
    | _ => settled (n.closeLevel k)
  | .backtick =>
    let u : Unclosed := { chain := n.chain, opening := start, leadingComments := n.leadingComments }
    readLiteral lines u { r with nesting := n.dropChain }
  | .slash =>
    let after := text.drop 1 ++ r.rest
    let more := if n.regexAllowed then (regexLength after).getD 0 - (text.length - 1) else 0
    .ok (Reading.skip more { r with nesting := n.dropChain.settle k text })
  | .lessThan =>
    match n.chain, typeArgumentsLength r.rest with
    | some _, some more => .ok (Reading.skip more { r with nesting := n.settle k text })
    | _, _ => settled n.dropChain
  | .semicolon | .comma => settled (n.dropChain.modifyStatement Statement.finish)
  | _ => settled n.dropChain

/-- Reads the lexeme that the character `c` begins in front of the rest. -/
def readLexeme (lines : LineMap) (n : Nesting) (offset : Nat) (c : Char) (t : Text) :
    Except ScanError Reading :=
  let lexeme := Lexeme.read c t
  let r : Reading := ⟨n, offset + Text.byteSize lexeme.text, Lexeme.rest c t⟩
  match lexeme.kind with
  | none => .ok { r with nesting := n.dropChain }
  | some .blanks | some .blockComment => .ok r
  | some .lineBreak => .ok { r with nesting := n.breakLine }
  | some .lineComment =>
    .ok { r with nesting := n.modifyStatement (Statement.comment (lexeme.text.drop 2)) }
  | some k => readCode lines k lexeme.text offset r

/-- A literal part leaves no more code to read. -/
theorem length_rest_readLiteral_le {lines : LineMap} {u : Unclosed} {r s : Reading}
    (h : readLiteral lines u r = .ok s) : s.rest.length ≤ r.rest.length := by
  simp only [readLiteral] at h
  split at h
  · contradiction
  · next seg hseg =>
    have := RawText.length_rest_lt_of_readSegment hseg
    split at h <;> (cases h; simp; omega)

/-- A lexeme leaves no more code than is behind it. -/
theorem length_rest_readCode_le {lines : LineMap} {k : LexemeKind} {text : Text} {start : Nat}
    {r s : Reading} (h : readCode lines k text start r = .ok s) :
    s.rest.length ≤ r.rest.length := by
  simp only [readCode] at h
  split at h
  case h_10 =>
    split at h
    · have := length_rest_readLiteral_le h
      exact this
    · cases h; simp
  case h_11 =>
    have := length_rest_readLiteral_le h
    exact this
  case h_13 => split at h <;> (cases h; simp [Reading.skip])
  all_goals (cases h; simp [Reading.skip])

/-- Every step takes at least one character away. -/
theorem length_rest_readLexeme_lt {lines : LineMap} {n : Nesting} {offset : Nat} {c : Char}
    {t : Text} {r : Reading} (h : readLexeme lines n offset c t = .ok r) :
    r.rest.length < (c :: t).length := by
  have := Lexeme.length_rest_le c t
  simp only [readLexeme] at h
  split at h
  case h_6 =>
    have := length_rest_readCode_le h
    simp only [List.length_cons] at this ⊢
    omega
  all_goals (cases h; simp only [List.length_cons]; omega)

/-- Reads all the code that is left. -/
def readToEnd (lines : LineMap) (n : Nesting) (offset : Nat) : Text → Except ScanError Nesting
  | [] =>
    match n.innermost? with
    | some u => .error (.unterminated u.opening (lines.position u.opening))
    | none => .ok n
  | c :: t =>
    match h : readLexeme lines n offset c t with
    | .error e => .error e
    | .ok r =>
      have := length_rest_readLexeme_lt h
      readToEnd lines r.nesting r.offset r.rest
termination_by t => t.length
decreasing_by exact this

/-- Reading code is reading its first lexeme and then the rest. -/
theorem readToEnd_cons (lines : LineMap) (n : Nesting) (offset : Nat) (c : Char) (t : Text) :
    readToEnd lines n offset (c :: t) =
      (readLexeme lines n offset c t).bind fun r => readToEnd lines r.nesting r.offset r.rest := by
  rw [readToEnd]
  split <;> simp_all [Except.bind]

/-- The tagged templates of host code, by the start of their tags. -/
def findTemplates (source : Text) : Except ScanError (List Tagged) := do
  let n ← readToEnd (LineMap.ofText source) {} 0 source
  return n.closed.mergeSort fun a b => a.span.start ≤ b.span.start

end StyleBlocks.Template
