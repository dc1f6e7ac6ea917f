import StyleBlocks.Location.Basic
import StyleBlocks.Location.Word
import StyleBlocks.Text.Blank

/-!
# Placeholders

In style text, the hole with index `i` of a template is written as the comment
`/*STYLE_EXPR:i*/`, its **placeholder**. Every dialect reads it as a comment. `Placeholder.pieces`
splits a text at the placeholders in it, and `readComment?` tells if a whole comment is one.
-/

namespace StyleBlocks.Placeholder

/-- The word that marks placeholders. -/
def mark : Text :=
  "STYLE_EXPR".toList

/-- Placeholders count up to here and no further. -/
def indexLimit : Nat :=
  Word.count

/-- The placeholder for an index. -/
def create (index : Nat) : Text :=
  '/' :: '*' :: mark ++ ':' :: Text.ofNat index ++ ['*', '/']

/-- A placeholder at the start of a text, whatever its index. -/
structure Token where
  /-- Its text. -/
  text : Text
  /-- Its index. -/
  index : Nat
  /-- What follows it. -/
  rest : Text

/-- The placeholder that a text starts with, if it does. -/
def readToken? (t : Text) : Option Token := do
  let opening := '/' :: '*' :: mark ++ [':']
  let u ← Text.dropStart? opening t
  let digits := u.takeWhile Char.isDigit
  let rest ← Text.dropStart? ['*', '/'] (u.dropWhile Char.isDigit)
  if digits.isEmpty then none
  else some ⟨opening ++ digits ++ ['*', '/'], Text.digitsValue digits, rest⟩

/-- A piece of a text: a placeholder, or text between placeholders. -/
inductive Piece where
  /-- Text without placeholders. -/
  | literal (text : Text)
  /-- A placeholder. -/
  | hole (index : Nat) (text : Text)
deriving DecidableEq, Repr

/-- The text of a piece. -/
def Piece.text : Piece → Text
  | literal t | hole _ t => t

/-- Puts text in front of pieces; neighbouring texts grow together. -/
def consLiteral (t : Text) : List Piece → List Piece
  | .literal u :: ps => .literal (t ++ u) :: ps
  | ps => .literal t :: ps

/-- A text in front of pieces stands in front of their texts. -/
theorem texts_consLiteral (t : Text) (ps : List Piece) :
    (consLiteral t ps).flatMap Piece.text = t ++ ps.flatMap Piece.text := by
  unfold consLiteral
  split <;> simp [Piece.text]

/-- A placeholder is cut off the front of a text, which it makes up with the rest. -/
theorem text_append_rest_of_readToken? {t : Text} {k : Token} (h : readToken? t = some k) :
    k.text ++ k.rest = t := by
  simp only [readToken?, Option.bind_eq_bind, Option.bind_eq_some_iff] at h
  obtain ⟨u, hu, rest, hrest, h⟩ := h
  split at h
  · contradiction
  · cases h
    rw [Text.dropStart?_eq_some_iff] at hu hrest
    have hu' := List.takeWhile_append_dropWhile (p := Char.isDigit) (l := u)
    rw [hrest] at hu'
    rw [hu]
    conv => rhs; rw [← hu']
    simp

/-- A placeholder leaves less text to read. -/
theorem length_rest_lt_of_readToken? {t : Text} {k : Token} (h : readToken? t = some k) :
    k.rest.length < t.length := by
  rw [← text_append_rest_of_readToken? h, List.length_append]
  simp only [readToken?, Option.bind_eq_bind, Option.bind_eq_some_iff] at h
  obtain ⟨u, -, rest, -, h⟩ := h
  split at h
  · contradiction
  · cases h; simp

/-- The pieces of a text, with the placeholders found from left to right. A placeholder whose index is
beyond the limit counts as text. -/
def pieces : Text → List Piece
  | [] => []
  | c :: t =>
    match h : readToken? (c :: t) with
    | some k =>
      have := length_rest_lt_of_readToken? h
      if k.index < indexLimit then .hole k.index k.text :: pieces k.rest
      else consLiteral k.text (pieces k.rest)
    | none => consLiteral [c] (pieces t)
termination_by t => t.length
decreasing_by
  · exact this
  · exact this
  · exact Nat.lt_succ_self _

/-- The pieces of a text, put together, are that text. -/
theorem texts_pieces (t : Text) : (pieces t).flatMap Piece.text = t := by
  fun_induction pieces t with
  | case1 => rfl
  | case2 c t k h _ _ ih => simpa [Piece.text, ih] using text_append_rest_of_readToken? h
  | case3 c t k h _ _ ih => simpa [texts_consLiteral, ih] using text_append_rest_of_readToken? h
  | case4 c t _ ih => simp [texts_consLiteral, ih]

/-- A placeholder found in a text. -/
structure Found where
  /-- Its index. -/
  index : Nat
  /-- Its bytes. -/
  span : Span
deriving DecidableEq, Repr

/-- The placeholders among pieces of which the first starts at an offset. -/
def foundFrom (offset : Nat) : List Piece → List Found
  | [] => []
  | .literal t :: ps => foundFrom (offset + Text.byteSize t) ps
  | .hole i t :: ps =>
    ⟨i, ⟨offset, offset + Text.byteSize t⟩⟩ :: foundFrom (offset + Text.byteSize t) ps

/-- The placeholders in a text, from left to right. -/
def findAll (t : Text) : List Found :=
  foundFrom 0 (pieces t)

/-- The text of a piece with a placeholder replaced by the expression for its index, if there is
one, and other text changed by `f`. -/
def Piece.resolve (f : Text → Text) (expressions : List Text) : Piece → Text
  | literal t => f t
  | hole i t => (expressions[i]?).getD (f t)

/-- Replaces the placeholders in a text by the expressions for them, as far as there are any, and
changes the text between them by `f`. -/
def resolve (f : Text → Text) (expressions : List Text) (t : Text) : Text :=
  (pieces t).flatMap (Piece.resolve f expressions)

/-- Replaces the placeholders in a text by the expressions for them, as far as there are any. -/
def substitute (expressions : List Text) (t : Text) : Text :=
  resolve id expressions t

/-- The index of the placeholder that a comment is, given what is between its marks. Blanks may
stand around it, and its numeral has no leading zeros. -/
def readComment? (inner : Text) : Option Nat := do
  let digits ← Text.dropStart? (mark ++ [':']) (Text.trim inner)
  let index := Text.digitsValue digits
  if digits.isEmpty || !digits.all Char.isDigit then none
  else if digits.head? = some '0' ∧ digits.length ≠ 1 then none
  else if index < indexLimit then some index else none

/-- The index of the placeholder that a fragment is, if it is a whole comment. -/
def readFragment? (fragment : Text) : Option Nat := do
  let inner ← Text.dropStart? ['/', '*'] fragment
  readComment? (← Text.dropEnd? ['*', '/'] inner)

end StyleBlocks.Placeholder
