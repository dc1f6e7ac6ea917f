import StyleBlocks.Yaml.Scalar
import StyleBlocks.Yaml.Tag

/-!
# YAML tokens

The parts that a YAML text is made of: scalars, properties of nodes, indicators, directives and the
marks of the start and the end of a document. `token?` reads one of them, given what the tokens before it
have opened. Where block collections begin and end, and which nodes are keys, is not written but follows
from the layout of the text, which adds the tokens for that.
-/

namespace StyleBlocks.Yaml

/-- The tokens of YAML. -/
inductive Token where
  /-- The mark of the start of a document. -/
  | start
  /-- The mark of the end of a document. -/
  | stop
  /-- The directive with the version of YAML. -/
  | version (major minor : Nat)
  /-- The directive that tells what a handle at the start of a tag is short for. -/
  | handle (handle expansion : Text)
  /-- The dash of an item. -/
  | dash
  /-- The start of a key, with a question mark or without. -/
  | key
  /-- The colon of a value. -/
  | value
  /-- A comma. -/
  | comma
  /-- An opening bracket. -/
  | openSequence
  /-- A closing bracket. -/
  | closeSequence
  /-- An opening brace. -/
  | openMapping
  /-- A closing brace. -/
  | closeMapping
  /-- The start of a block sequence. -/
  | beginSequence
  /-- The start of a block mapping. -/
  | beginMapping
  /-- The end of a block collection. -/
  | endBlock
  /-- An anchor, by which aliases name the node after it. -/
  | anchor (name : Text)
  /-- An alias. -/
  | alias (name : Text)
  /-- A tag. -/
  | tag (tag : Tag)
  /-- A plain or quoted scalar. -/
  | scalar (plain : Bool) (text : Text)
  /-- A scalar made of a block of lines. -/
  | lines (text : Text)
deriving DecidableEq

/-- A place in a text. -/
structure Place where
  /-- The column. -/
  column : Nat := 0
  /-- Whether an entry of a block collection can begin here. -/
  fresh : Bool := true
  /-- The text from here. -/
  rest : Text

/-- Goes over blanks, line breaks and comments; `inComment` tells if a comment has begun. A tab is no
blank where an entry of a block collection can begin. A byte order mark at the start of a line is a
blank. -/
def skipBlanks (flow inComment : Bool) (column : Nat) (fresh : Bool) : Text → Place
  | [] => ⟨column, fresh, []⟩
  | c :: t =>
    if isBreak c then skipBlanks flow false 0 (fresh || !flow) t
    else if inComment ∨ c = ' ' ∨ (c = '\t' ∧ (flow ∨ !fresh)) ∨ (c = '\ufeff' ∧ column = 0) then
      skipBlanks flow inComment (column + 1) fresh t
    else if c = '#' then skipBlanks flow true (column + 1) fresh t
    else ⟨column, fresh, c :: t⟩

/-- Going over blanks leaves no more text than there was. -/
theorem length_rest_skipBlanks_le (flow inComment : Bool) (column : Nat) (fresh : Bool) (t : Text) :
    (skipBlanks flow inComment column fresh t).rest.length ≤ t.length := by
  fun_induction skipBlanks flow inComment column fresh t <;> grind

/-! ### Names -/

/-- The name of an anchor or alias at the start of a text, and the rest. -/
def name? (t : Text) : Option (Text × Text) := do
  let p ← t.run? isNameChar
  if startsBlank p.2 ∨ p.2.head?.any fun c => "?:,]\x7d%@\x60".toList.contains c then some p else none

/-- A name leaves no more text than there was. -/
theorem length_snd_name?_le {t : Text} {p : Text × Text} (h : name? t = some p) :
    p.2.length ≤ t.length := by
  simp only [name?, Option.bind_eq_bind, Option.bind_eq_some_iff] at h
  obtain ⟨q, hq, h⟩ := h
  have := Text.length_snd_run?_lt hq
  split at h
  · cases h; omega
  · contradiction

/-! ### Directives -/

/-- The number at the start of a text, and the rest. It has nine digits at most. -/
def versionNumber? (t : Text) : Option (Nat × Text) := do
  let (digits, rest) ← t.run? Char.isDigit
  if digits.length < 10 then some (Text.digitsValue digits, rest) else none

/-- The version that the rest of a line tells, and what follows the line. -/
def version? (t : Text) : Option (Token × Text) := do
  let (major, t) ← versionNumber? (t.dropWhile isSpace)
  guard (t.head? = some '.')
  let (minor, t) ← versionNumber? t.tail
  return (.version major minor, ← endOfHeader? t)

/-- The handle at the start of a text that follows an exclamation mark, and the rest. -/
def handle? (t : Text) : Option (Text × Text) :=
  match t.dropWhile isNameChar with
  | '!' :: u => some ('!' :: t.takeWhile isNameChar ++ ['!'], u)
  | u => if u = t then some (['!'], t) else none

/-- The handle and its expansion that the rest of a line tells, and what follows the line. -/
def handleDirective? (t : Text) : Option (Token × Text) := do
  let t := t.dropWhile isSpace
  guard (t.head? = some '!')
  let (handle, t) ← handle? t.tail
  guard (t.head?.any isSpace)
  let (expansion, t) ← Tag.part? Tag.isFullChar (t.dropWhile isSpace)
  guard (startsBlank t)
  return (.handle handle expansion, ← endOfHeader? t)

/-- The directive at the start of a text that follows a percent sign, and what follows its line. -/
def directive? (t : Text) : Option (Token × Text) := do
  let (name, t) ← t.run? isNameChar
  guard (startsBlank t)
  if name = "YAML".toList then version? t
  else if name = "TAG".toList then handleDirective? t
  else none

/-- A number of a version leaves no more text than there was. -/
theorem length_snd_versionNumber?_le {t : Text} {p : Nat × Text} (h : versionNumber? t = some p) :
    p.2.length ≤ t.length := by
  simp only [versionNumber?, Option.bind_eq_bind, Option.bind_eq_some_iff] at h
  obtain ⟨⟨_, r⟩, hr, h⟩ := h
  have := Text.length_snd_run?_lt hr
  split at h
  · cases h; simp only at *; omega
  · contradiction

/-- A version leaves no more text than there was. -/
theorem length_snd_version?_le {t : Text} {p : Token × Text} (h : version? t = some p) :
    p.2.length ≤ t.length := by
  obtain ⟨⟨_, t₁⟩, h₁, h⟩ := Option.bind_eq_some_iff.1 h
  obtain ⟨_, -, h⟩ := Option.bind_eq_some_iff.1 h
  obtain ⟨⟨_, t₂⟩, h₂, h⟩ := Option.bind_eq_some_iff.1 h
  obtain ⟨t₃, h₃, h⟩ := Option.bind_eq_some_iff.1 h
  cases h
  have hspace := Text.length_dropWhile_le isSpace t
  have hmajor := length_snd_versionNumber?_le h₁
  have hminor := length_snd_versionNumber?_le h₂
  have hend := length_endOfHeader?_le h₃
  simp only [List.length_tail] at hmajor hminor hend ⊢
  omega

/-- A handle leaves no more text than there was. -/
theorem length_snd_handle?_le {t : Text} {p : Text × Text} (h : handle? t = some p) :
    p.2.length ≤ t.length := by
  have := Text.length_dropWhile_le isNameChar t
  rw [handle?] at h
  split at h
  · next hu =>
    cases h
    simp only [hu, List.length_cons] at *
    omega
  · split at h
    · cases h; simp
    · contradiction

/-- A handle and its expansion leave no more text than there was. -/
theorem length_snd_handleDirective?_le {t : Text} {p : Token × Text}
    (h : handleDirective? t = some p) : p.2.length ≤ t.length := by
  obtain ⟨_, -, h⟩ := Option.bind_eq_some_iff.1 h
  obtain ⟨⟨_, t₁⟩, h₁, h⟩ := Option.bind_eq_some_iff.1 h
  obtain ⟨_, -, h⟩ := Option.bind_eq_some_iff.1 h
  obtain ⟨⟨_, t₂⟩, h₂, h⟩ := Option.bind_eq_some_iff.1 h
  obtain ⟨_, -, h⟩ := Option.bind_eq_some_iff.1 h
  obtain ⟨t₃, h₃, h⟩ := Option.bind_eq_some_iff.1 h
  cases h
  have hspace := Text.length_dropWhile_le isSpace t
  have hhandle := length_snd_handle?_le h₁
  have hspace₁ := Text.length_dropWhile_le isSpace t₁
  have hpart := Tag.length_snd_part?_le h₂
  have hend := length_endOfHeader?_le h₃
  simp only [List.length_tail] at hhandle hpart hend ⊢
  omega

/-- A directive leaves no more text than there was. -/
theorem length_snd_directive?_le {t : Text} {p : Token × Text} (h : directive? t = some p) :
    p.2.length ≤ t.length := by
  obtain ⟨⟨_, r⟩, hr, h⟩ := Option.bind_eq_some_iff.1 h
  obtain ⟨_, -, h⟩ := Option.bind_eq_some_iff.1 h
  have hr := Nat.le_of_lt (Text.length_snd_run?_lt hr)
  split at h
  · exact Nat.le_trans (length_snd_version?_le h) hr
  split at h
  · exact Nat.le_trans (length_snd_handleDirective?_le h) hr
  · contradiction

/-! ### Tokens -/

/-- The token that a plain or quoted scalar is, and the place after it. -/
def ofScalar (plain : Bool) (s : Scalar) : Token × Place :=
  (.scalar plain s.text, ⟨s.column, s.broken, s.rest⟩)

/-- Characters that begin no plain scalar. -/
def isIndicator (c : Char) : Bool :=
  isSpace c || "-?:,[]\x7b\x7d#&*!|>\x27\x22%@\x60".toList.contains c

/-- Whether a plain scalar can begin with the character `c` in front of `t`. -/
def beginsPlain (flow : Bool) (c : Char) (t : Text) : Bool :=
  !isIndicator c || (c == '-' && !(t.head?.any isSpace)) ||
    (!flow && (c == '?' || c == ':') && !startsBlank t)

/-- The token that the character `c` begins at a column in front of `t`, and the place after it. What
belongs to the block collection around it starts at `least` or further right; `keyed` tells if what
stands before it can be a key. -/
def token? (flow : Bool) (least : Nat) (keyed : Bool) (column : Nat) (c : Char) (t : Text) :
    Option (Token × Place) :=
  let after (k : Token) (fresh : Bool) : Option (Token × Place) :=
    some (k, ⟨column + 1, fresh, t⟩)
  let upTo (rest : Text) : Place := ⟨column + 1 + (t.length - rest.length), false, rest⟩
  if column = 0 ∧ startsMarker (c :: t) then
    some (if c = '-' then .start else .stop, ⟨column + 3, false, t.drop 2⟩)
  else if column = 0 ∧ c = '%' then (directive? t).map fun p => (p.1, ⟨0, false, p.2⟩)
  else match c with
  | '[' => after .openSequence true
  | ']' => after .closeSequence false
  | '{' => after .openMapping true
  | '}' => after .closeMapping false
  | ',' => after .comma true
  | '&' => (name? t).map fun p => (.anchor p.1, upTo p.2)
  | '*' => (name? t).map fun p => (.alias p.1, upTo p.2)
  | '!' => (Tag.read? flow t).map fun p => (.tag p.1, upTo p.2)
  | '\x22' | '\x27' => (quotedFrom c [] (.spaces []) (column + 1) t).map (ofScalar false)
  | c =>
    if c = '-' ∧ startsBlank t then after .dash true
    else if c = '?' ∧ (flow ∨ startsBlank t) then after .key (!flow)
    else if c = ':' ∧ (flow ∨ startsBlank t) then after .value (!flow && !keyed)
    else if (c = '|' ∨ c = '>') ∧ !flow then do
      let s ← block? (← header? (c = '|') t) least
      return (.lines s.text, ⟨s.column, true, s.rest⟩)
    else if beginsPlain flow c t then
      (plainFrom flow least [c] (.spaces []) (column + 1) t).map (ofScalar true)
    else none

/-- A token leaves no more text than there was behind its first character. -/
theorem length_rest_token?_le {flow keyed : Bool} {least column : Nat} {c : Char} {t : Text}
    {k : Token × Place} (h : token? flow least keyed column c t = some k) :
    k.2.rest.length ≤ t.length := by
  have quoted {q : Char} {k : Token × Place}
      (h : (quotedFrom q [] (.spaces []) (column + 1) t).map (ofScalar false) = some k) :
      k.2.rest.length ≤ t.length := by
    obtain ⟨s, hs, rfl⟩ := Option.map_eq_some_iff.1 h
    exact length_rest_quotedFrom_le hs
  simp only [token?] at h
  split at h
  · cases h; simp
  split at h
  · obtain ⟨p, hp, rfl⟩ := Option.map_eq_some_iff.1 h
    exact length_snd_directive?_le hp
  split at h
  case h_6 | h_7 =>
    obtain ⟨p, hp, rfl⟩ := Option.map_eq_some_iff.1 h
    exact length_snd_name?_le hp
  case h_8 =>
    obtain ⟨p, hp, rfl⟩ := Option.map_eq_some_iff.1 h
    exact Tag.length_snd_read?_le hp
  case h_9 | h_10 => exact quoted h
  case h_11 =>
    split at h
    · cases h; simp
    split at h
    · cases h; simp
    split at h
    · cases h; simp
    split at h
    · simp only [Option.pure_def, Option.bind_eq_bind, Option.bind_eq_some_iff] at h
      obtain ⟨hd, hh, s, hs, h⟩ := h
      cases h
      exact Nat.le_trans (length_rest_block?_le hs) (length_rest_header?_le hh)
    split at h
    · obtain ⟨s, hs, rfl⟩ := Option.map_eq_some_iff.1 h
      exact length_rest_plainFrom_le hs
    · contradiction
  all_goals (cases h; simp)

end StyleBlocks.Yaml
