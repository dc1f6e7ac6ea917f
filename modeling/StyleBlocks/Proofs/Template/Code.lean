import StyleBlocks.Proofs.Template.LexemeEnds
import StyleBlocks.Proofs.Template.Steps

/-!
# Code in holes

Code that can stand in a hole is made of lexemes and of templates, with every bracket closed by its
counterpart. `IsCode` says so of a text from left to right: an opening bracket makes its counterpart
due, and at the end nothing is due. Its cases are what reading meets in such code, and for each of
them a lemma says what reading does: a plain lexeme leaves the open levels as they are, brackets open
and close a level, and a backtick opens a template.

## Main results

* `readLexeme_plain`, `readLexeme_opening`, `readLexeme_closing`: what a lexeme of code does.
* `readLexeme_backtick`: what the backtick of a template does.
* `readLexeme_hole`: what the brace behind the code of a hole does.
-/

namespace StyleBlocks.Template

/-- The kind of lexeme that closes what a lexeme opens. -/
def LexemeKind.closer? : LexemeKind → Option LexemeKind
  | openParen => some closeParen
  | openBracket => some closeBracket
  | openBrace => some closeBrace
  | _ => none

/-- The kinds of lexemes that open and close nothing and mean the same wherever they stand. -/
def LexemeKind.isPlain : LexemeKind → Bool
  | openParen | closeParen | openBracket | closeBracket | openBrace | closeBrace => false
  | backtick | slash | lessThan => false
  | _ => true

/-- The literal parts of a template, each with the code of the hole behind it, then its last literal
part and its closing backtick. -/
def writeParts : List (Text × Text) → Text → Text
  | [], last => last ++ ['\x60']
  | (raw, code) :: parts, last =>
    raw ++ '$' :: '{' :: (code ++ '}' :: writeParts parts last)

/-- A text **is code** in which lexemes of the given kinds are due, for what has been opened in front
of it. Code is made of lexemes and of complete templates. Every bracket is closed by its counterpart,
and comments up to the end of a line end before the code does. No slash and no less-than sign stands
in it: what these mean depends on what is around them. -/
inductive IsCode : List LexemeKind → Text → Prop
  /-- Nothing is left, and nothing is due. -/
  | done : IsCode [] []
  /-- A lexeme that opens and closes nothing. -/
  | plain {due : List LexemeKind} {c : Char} {t : Text} {k : LexemeKind}
      (kind : (Lexeme.read c t).kind = some k) (isPlain : k.isPlain)
      (ends : k = .lineComment → Lexeme.rest c t ≠ []) (rest : IsCode due (Lexeme.rest c t)) :
      IsCode due (c :: t)
  /-- An opening bracket, which makes its counterpart due. -/
  | opening {due : List LexemeKind} {c : Char} {t : Text} {k closer : LexemeKind}
      (kind : (Lexeme.read c t).kind = some k) (opens : k.closer? = some closer)
      (rest : IsCode (closer :: due) (Lexeme.rest c t)) : IsCode due (c :: t)
  /-- The closing bracket that is due. -/
  | closing {due : List LexemeKind} {c : Char} {t : Text} {k : LexemeKind}
      (kind : (Lexeme.read c t).kind = some k) (rest : IsCode due (Lexeme.rest c t)) :
      IsCode (k :: due) (c :: t)
  /-- A template: its literal parts are raw text, and nothing is due in the code of its holes. -/
  | template {due : List LexemeKind} {parts : List (Text × Text)} {last t : Text}
      (raws : ∀ p ∈ parts, RawText.IsRaw p.1) (codes : ∀ p ∈ parts, IsCode [] p.2)
      (isRaw : RawText.IsRaw last) (rest : IsCode due t) :
      IsCode due ('\x60' :: writeParts parts last ++ t)

/-- The first part of a template and its hole stand in front of the others. -/
theorem writeParts_cons (raw code : Text) (parts : List (Text × Text)) (last : Text) :
    writeParts ((raw, code) :: parts) last =
      raw ++ '$' :: '{' :: (code ++ ['}']) ++ writeParts parts last := by
  simp [writeParts]

/-! ### What the lexemes of code do -/

/-- The kind of lexeme that closes what opened a level. A hole is closed by no lexeme of its code. -/
def Opener.closer? : Opener → Option LexemeKind
  | paren _ => some .closeParen
  | bracket _ => some .closeBracket
  | brace => some .closeBrace
  | hole _ _ => none

section

variable {lines : LineMap} {u : Unclosed} {n : Nesting} {o s start : Nat} {c : Char} {t text : Text}
  {k closer : LexemeKind} {p : Opener} {os : List Opener} {r : Reading}

/-- A closing bracket closes the level that its counterpart opened. -/
theorem Nesting.closeLevel_of_closer? (ho : n.openers = p :: os) (hp : p.closer? = some k) :
    (n.closeLevel k).openers = os ∧ (n.closeLevel k).closed = n.closed := by
  obtain ⟨l, ls, hl, rfl, rfl⟩ := exists_levels_of_openers ho
  rw [closeLevel, hl]
  cases hopener : l.opener with
  | hole u s => simp [hopener, Opener.closer?] at hp
  | _ =>
      rw [hopener] at hp
      cases hp
      simp [hopener, openers]

/-- Acting on a plain lexeme leaves the open levels as they are. -/
theorem readCode_plain (hk : k.isPlain) :
    ∃ m : Nesting, m.openers = r.nesting.openers ∧ m.closed = r.nesting.closed ∧
      readCode lines k text start r = .ok { r with nesting := m } := by
  obtain ⟨m, ho, hc, hread⟩ : ∃ m : Nesting, m.openers = r.nesting.openers ∧
      m.closed = r.nesting.closed ∧
      readCode lines k text start r = .ok { r with nesting := m.settle k text } := by
    have ho := Nesting.openers_modifyStatement (Statement.meet k) r.nesting
    have hc := Nesting.closed_modifyStatement (Statement.meet k) r.nesting
    cases k with
    | openParen | closeParen | openBracket | closeBracket | openBrace | closeBrace =>
        exact absurd hk (by decide)
    | backtick | slash | lessThan => exact absurd hk (by decide)
    | semicolon | comma =>
        refine ⟨_, ?_, ?_, rfl⟩
        · exact (Nesting.openers_modifyStatement _ _).trans ho
        · exact (Nesting.closed_modifyStatement _ _).trans hc
    | _ =>
        refine ⟨_, ?_, ?_, rfl⟩
        · exact ho
        · exact hc
  exact ⟨m.settle k text, by simp [ho], by simp [hc], hread⟩

/-- **A plain lexeme** leaves the open levels as they are. -/
theorem readLexeme_plain (hkind : (Lexeme.read c t).kind = some k) (hk : k.isPlain) :
    ∃ m, m.openers = n.openers ∧ m.closed = n.closed ∧ readLexeme lines n o c t =
      .ok ⟨m, o + Text.byteSize (Lexeme.read c t).text, Lexeme.rest c t⟩ := by
  simp only [readLexeme, hkind]
  cases k with
  | blanks | blockComment => exact ⟨n, rfl, rfl, rfl⟩
  | lineBreak => exact ⟨n.breakLine, by simp, by simp, rfl⟩
  | lineComment =>
      exact ⟨_, Nesting.openers_modifyStatement _ n, Nesting.closed_modifyStatement _ n, rfl⟩
  | _ => exact readCode_plain (r := ⟨n, _, _⟩) hk

/-- **An opening bracket** opens a level. -/
theorem readLexeme_opening (hkind : (Lexeme.read c t).kind = some k)
    (hk : k.closer? = some closer) :
    ∃ m p, p.closer? = some closer ∧ m.openers = p :: n.openers ∧ m.closed = n.closed ∧
      readLexeme lines n o c t =
        .ok ⟨m, o + Text.byteSize (Lexeme.read c t).text, Lexeme.rest c t⟩ := by
  obtain ⟨p, hp, hread⟩ : ∃ p, p.closer? = some closer ∧ readLexeme lines n o c t =
      .ok ⟨((n.modifyStatement (Statement.meet k)).openLevel p).settle k (Lexeme.read c t).text,
        o + Text.byteSize (Lexeme.read c t).text, Lexeme.rest c t⟩ := by
    simp only [readLexeme, hkind]
    cases k with
    | openParen => exact ⟨.paren _, hk, rfl⟩
    | openBracket => exact ⟨.bracket _, hk, rfl⟩
    | openBrace => exact ⟨.brace, hk, rfl⟩
    | _ => contradiction
  refine ⟨_, p, hp, ?_, ?_, hread⟩
  · exact (Nesting.openers_settle _ _ _).trans
      (congrArg (p :: ·) (Nesting.openers_modifyStatement _ n))
  · exact (Nesting.closed_settle _ _ _).trans (Nesting.closed_modifyStatement _ n)

/-- **The closing bracket of the innermost level** closes it. -/
theorem readLexeme_closing (hkind : (Lexeme.read c t).kind = some k) (ho : n.openers = p :: os)
    (hp : p.closer? = some k) :
    ∃ m, m.openers = os ∧ m.closed = n.closed ∧ readLexeme lines n o c t =
      .ok ⟨m, o + Text.byteSize (Lexeme.read c t).text, Lexeme.rest c t⟩ := by
  have hmeet := (Nesting.openers_modifyStatement (Statement.meet k) n).trans ho
  obtain ⟨hos, hc⟩ := Nesting.closeLevel_of_closer? hmeet hp
  have hread : readLexeme lines n o c t =
      .ok ⟨((n.modifyStatement (Statement.meet k)).closeLevel k).settle k (Lexeme.read c t).text,
        o + Text.byteSize (Lexeme.read c t).text, Lexeme.rest c t⟩ := by
    simp only [readLexeme, hkind]
    cases p with
    | hole u s => contradiction
    | paren | bracket =>
        cases hp
        rfl
    | brace =>
        cases hp
        obtain ⟨l, ls, hl, hopener, -⟩ := Nesting.exists_levels_of_openers hmeet
        simp only [readCode, hl]
        split
        · simp_all
        · rfl
  refine ⟨_, (Nesting.openers_settle _ _ _).trans hos, ?_, hread⟩
  exact (Nesting.closed_settle _ _ _).trans (hc.trans (Nesting.closed_modifyStatement _ n))

/-- **A backtick** opens a template, with the chain in front of it as its tag. -/
theorem readLexeme_backtick (lines : LineMap) (n : Nesting) (o : Nat) (t : Text) :
    ∃ m comments, m.openers = n.openers ∧ m.closed = n.closed ∧
      readLexeme lines n o '\x60' t = readLiteral lines
        { chain := n.chain, opening := o, leadingComments := comments } ⟨m, o + 1, t⟩ := by
  refine ⟨_, (n.modifyStatement (Statement.meet .backtick)).leadingComments,
    Nesting.openers_modifyStatement (Statement.meet .backtick) n,
    Nesting.closed_modifyStatement (Statement.meet .backtick) n, ?_⟩
  rw [← Nesting.chain_modifyStatement (Statement.meet .backtick) n]
  rfl

/-- **A closing brace** closes the hole that is the innermost level, and its template goes on. -/
theorem readLexeme_hole (lines : LineMap) (ho : n.openers = .hole u s :: os) (o : Nat) (t : Text) :
    ∃ m, m.openers = os ∧ m.closed = n.closed ∧ readLexeme lines n o '}' t =
      readLiteral lines (u.addHole ⟨⟨s, o⟩, lines.position s⟩) ⟨m, o + 1, t⟩ := by
  have hmeet := (Nesting.openers_modifyStatement (Statement.meet .closeBrace) n).trans ho
  obtain ⟨⟨opener, statement⟩, ls, hl, hopener, hos⟩ := Nesting.exists_levels_of_openers hmeet
  cases hopener
  refine ⟨{ n.modifyStatement (Statement.meet .closeBrace) with levels := ls }, hos,
    Nesting.closed_modifyStatement _ n, ?_⟩
  change readCode lines .closeBrace _ _ _ = _
  simp only [readCode, hl]
  rfl

end

end StyleBlocks.Template
