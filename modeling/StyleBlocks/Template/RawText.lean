import StyleBlocks.Text.Basic

/-!
# Raw text of template literals

The literal parts of a template are **raw text**: a backslash forms an escape pair with the
character after it, a backtick outside a pair ends the template, and a dollar sign with an opening
brace outside a pair opens a hole. `readSegment` reads one literal part, `escape` makes any text raw
while it keeps the escape pairs that are there, and `encode` makes raw text that stands for the
given text literally.
-/

namespace StyleBlocks.Template.RawText

/-- What ends a literal part of a template. -/
inductive Delimiter where
  /-- The backtick that closes the template. -/
  | backtick
  /-- The dollar sign and brace that open a hole. -/
  | hole
deriving DecidableEq, Repr

/-- The characters of a delimiter. -/
def Delimiter.text : Delimiter → Text
  | backtick => ['\x60']
  | hole => ['$', '{']

/-- A literal part of a template, as read from the front of a text. -/
structure Segment where
  /-- The text of the part. -/
  raw : Text
  /-- What ends it. -/
  delimiter : Delimiter
  /-- What follows the delimiter. -/
  rest : Text
deriving DecidableEq, Repr

/-- Puts characters in front of a literal part. -/
def Segment.cons (front : Text) (s : Segment) : Segment :=
  { s with raw := front ++ s.raw }

/-- The literal part of a template that a text starts with, or `none` if the text ends first. -/
def readSegment : Text → Option Segment
  | [] => none
  | ['\\'] => none
  | '\\' :: c :: t => (readSegment t).map (Segment.cons ['\\', c])
  | '\x60' :: t => some ⟨[], .backtick, t⟩
  | '$' :: '{' :: t => some ⟨[], .hole, t⟩
  | c :: t => (readSegment t).map (Segment.cons [c])

/-- The text read is the part, its delimiter and the rest. -/
theorem eq_append_of_readSegment {t : Text} {s : Segment} (h : readSegment t = some s) :
    t = s.raw ++ s.delimiter.text ++ s.rest := by
  fun_induction readSegment t generalizing s with
  | case1 => simp at h
  | case2 => simp at h
  | case3 c t ih =>
    obtain ⟨u, hu, rfl⟩ := Option.map_eq_some_iff.1 h
    simpa [Segment.cons] using ih hu
  | case4 t => simp at h; subst h; rfl
  | case5 t => simp at h; subst h; rfl
  | case6 c t _ _ _ _ ih =>
    obtain ⟨u, hu, rfl⟩ := Option.map_eq_some_iff.1 h
    simpa [Segment.cons] using ih hu

/-- A literal part leaves less text to read. -/
theorem length_rest_lt_of_readSegment {t : Text} {s : Segment} (h : readSegment t = some s) :
    s.rest.length < t.length := by
  have h := congrArg List.length (eq_append_of_readSegment h)
  have : 0 < s.delimiter.text.length := by cases s.delimiter <;> simp [Delimiter.text]
  simp at h
  omega

/-- A text is **raw text** if, with a backtick after it, it is read as one literal part that this
backtick ends. -/
def IsRaw (t : Text) : Prop :=
  readSegment (t ++ ['\x60']) = some ⟨t, .backtick, []⟩

instance (t : Text) : Decidable (IsRaw t) :=
  inferInstanceAs (Decidable (_ = _))

/-- Makes a text raw. Escape pairs stay as they are; a bare backtick, a bare opening of a hole and a
backslash at the end get a backslash in front. -/
def escape : Text → Text
  | [] => []
  | ['\\'] => ['\\', '\\']
  | '\\' :: c :: t => '\\' :: c :: escape t
  | '\x60' :: t => '\\' :: '\x60' :: escape t
  | '$' :: '{' :: t => '\\' :: '$' :: '{' :: escape t
  | c :: t => c :: escape t

/-- Raw text that stands for a text literally: every backslash, backtick and opening of a hole gets a
backslash in front. -/
def encode : Text → Text
  | [] => []
  | '\\' :: t => '\\' :: '\\' :: encode t
  | '\x60' :: t => '\\' :: '\x60' :: encode t
  | '$' :: '{' :: t => '\\' :: '$' :: '{' :: encode t
  | c :: t => c :: encode t

/-- The text that raw text stands for when each escape pair stands for its second character. -/
def decode : Text → Text
  | '\\' :: c :: t => c :: decode t
  | c :: t => c :: decode t
  | [] => []

end StyleBlocks.Template.RawText
