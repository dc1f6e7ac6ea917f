import StyleBlocks.Json.Basic

/-!
# Reading JSON

`Json.read?` reads a JSON text in two passes. The first cuts it into tokens, in which strings,
numbers and words are values already; the second goes over the tokens with a stack of the arrays and
objects that are open.

An escape in a string names a code unit of UTF-16, and a pair of surrogates names one character. Half of
such a pair is no character, but a string may name it where nobody reads the string.
-/

namespace StyleBlocks.Json

/-! ### Tokens -/

/-- The tokens of JSON. -/
inductive Token where
  /-- An opening brace. -/
  | openBrace
  /-- A closing brace. -/
  | closeBrace
  /-- An opening bracket. -/
  | openBracket
  /-- A closing bracket. -/
  | closeBracket
  /-- A comma. -/
  | comma
  /-- A colon. -/
  | colon
  /-- A string, by its text if it has one. -/
  | string (text : Option Text)
  /-- A number or a word. -/
  | scalar (v : Json)

/-- The value of a hexadecimal digit. -/
def hexDigit? (c : Char) : Option Nat :=
  if c.isDigit then some (c.toNat - '0'.toNat)
  else if 'a' ≤ c ∧ c ≤ 'f' then some (c.toNat - 'a'.toNat + 10)
  else if 'A' ≤ c ∧ c ≤ 'F' then some (c.toNat - 'A'.toNat + 10)
  else none

/-- The number that hexadecimal digits denote. -/
def hexValue? (digits : Text) : Option Nat :=
  digits.foldlM (fun n c => (hexDigit? c).map (16 * n + ·)) 0

/-- The character that the letter of a short escape stands for. -/
def shortEscape? : Char → Option Char
  | '\x22' => some '\x22'
  | '\\' => some '\\'
  | '/' => some '/'
  | 'b' => some '\x08'
  | 'f' => some '\x0c'
  | 'n' => some '\n'
  | 'r' => some '\r'
  | 't' => some '\t'
  | _ => none

/-- Puts elements in front of what has been read and leaves the rest as it is. -/
def prepend {α : Type} (front : List α) (p : List α × Text) : List α × Text :=
  (front ++ p.1, p.2)

/-- What is put in front of a part that has been read leaves what is behind it as it is. -/
theorem length_snd_le_of_map_prepend {α : Type} {front : List α} {o : Option (List α × Text)}
    {p : List α × Text} {n : Nat} (h : o.map (prepend front) = some p)
    (ho : ∀ q, o = some q → q.2.length ≤ n) : p.2.length ≤ n := by
  obtain ⟨q, hq, rfl⟩ := Option.map_eq_some_iff.1 h
  exact ho q hq

/-- The code units and code points that the characters and escapes of a string name, up to its closing
quote, and what follows that. -/
def codes? : Text → Option (List Nat × Text)
  | [] => none
  | '\x22' :: t => some ([], t)
  | '\\' :: 'u' :: a :: b :: c :: d :: t =>
    match hexValue? [a, b, c, d] with
    | none => none
    | some n => (codes? t).map (prepend [n])
  | '\\' :: c :: t =>
    match shortEscape? c with
    | none => none
    | some d => (codes? t).map (prepend [d.toNat])
  | c :: t => if c.toNat < 32 then none else (codes? t).map (prepend [c.toNat])

/-- The text that code units and code points name, if all surrogates among them come in pairs. -/
def textOfCodes? : List Nat → Option Text
  | [] => some []
  | n :: ns =>
    if n < 0xd800 ∨ 0xe000 ≤ n then (textOfCodes? ns).map (Char.ofNat n :: ·)
    else match ns with
    | [] => none
    | low :: ns =>
      if n < 0xdc00 ∧ 0xdc00 ≤ low ∧ low < 0xe000 then
        (textOfCodes? ns).map
          (Char.ofNat (0x10000 + (n - 0xd800) * 0x400 + (low - 0xdc00)) :: ·)
      else none

/-- The code points of the characters of a text name that text. -/
theorem textOfCodes?_map_toNat (t : Text) : textOfCodes? (t.map Char.toNat) = some t := by
  induction t with
  | nil => rfl
  | cons c t ih =>
    have hc : c.toNat < 0xd800 ∨ 0xe000 ≤ c.toNat := by
      have := c.valid
      simp only [UInt32.isValidChar, Nat.isValidChar] at this
      simp only [Char.toNat]
      omega
    rw [List.map_cons, textOfCodes?.eq_def]
    simp [hc, ih]

/-- The string with a text, if there is one. -/
def stringWith : Option Text → Json
  | some t => string t
  | none => illFormed

/-- The longest run of digits at the start of a text, if there is one, and the rest. -/
def digits? (t : Text) : Option (Text × Text) :=
  t.run? Char.isDigit

/-- The whole part of a numeral, which starts with a zero only if it is zero, and the rest. -/
def wholePart? : Text → Option (Text × Text)
  | '0' :: t => some (['0'], t)
  | t => digits? t

/-- The fraction of a numeral, which may be missing, and the rest. -/
def fraction? : Text → Option (Text × Text)
  | '.' :: t => (digits? t).map (prepend ['.'])
  | t => some ([], t)

/-- The exponent of a numeral, which may be missing, and the rest. -/
def exponent? : Text → Option (Text × Text)
  | [] => some ([], [])
  | e :: t =>
    if e = 'e' ∨ e = 'E' then
      match t with
      | '+' :: u => (digits? u).map (prepend [e, '+'])
      | '-' :: u => (digits? u).map (prepend [e, '-'])
      | u => (digits? u).map (prepend [e])
    else some ([], e :: t)

/-- The numeral at the start of a text and the rest. -/
def numeral? (t : Text) : Option (Text × Text) := do
  let (sign, t) := match t with
    | '-' :: u => (['-'], u)
    | u => ([], u)
  let (whole, t) ← wholePart? t
  let (fraction, t) ← fraction? t
  let (exponent, t) ← exponent? t
  return (sign ++ whole ++ fraction ++ exponent, t)

/-- The blanks between JSON tokens. -/
def isSpace (c : Char) : Bool :=
  c == ' ' || c == '\t' || c == '\n' || c == '\r'

/-- The token that the character `c` begins in front of the text `t`, if it is no blank, and the
rest. -/
def token? (c : Char) (t : Text) : Option (Token × Text) :=
  match c, t with
  | '{', t => some (.openBrace, t)
  | '}', t => some (.closeBrace, t)
  | '[', t => some (.openBracket, t)
  | ']', t => some (.closeBracket, t)
  | ',', t => some (.comma, t)
  | ':', t => some (.colon, t)
  | '\x22', t => (codes? t).map fun p => (.string (textOfCodes? p.1), p.2)
  | 'n', 'u' :: 'l' :: 'l' :: t => some (.scalar .null, t)
  | 't', 'r' :: 'u' :: 'e' :: t => some (.scalar (.bool true), t)
  | 'f', 'a' :: 'l' :: 's' :: 'e' :: t => some (.scalar (.bool false), t)
  | c, t => (numeral? (c :: t)).map fun p => (.scalar (.number p.1), p.2)

/-- The characters of a string leave no more text than there was. -/
theorem length_snd_codes?_le {t : Text} {p : List Nat × Text} (h : codes? t = some p) :
    p.2.length ≤ t.length := by
  fun_induction codes? t generalizing p with
  | case1 | case3 | case5 | case7 => contradiction
  | case2 => cases h; simp
  | case4 | case6 | case8 =>
    rename_i ih
    have := length_snd_le_of_map_prepend h fun q hq => ih hq
    simp only [List.length_cons] at this ⊢
    omega

/-- Digits leave less text to read. -/
theorem length_snd_digits?_lt {t : Text} {p : Text × Text} (h : digits? t = some p) :
    p.2.length < t.length :=
  Text.length_snd_run?_lt h

/-- The whole part of a number leaves less text to read. -/
theorem length_snd_wholePart?_lt {t : Text} {p : Text × Text} (h : wholePart? t = some p) :
    p.2.length < t.length := by
  unfold wholePart? at h
  split at h
  · cases h; simp
  · exact length_snd_digits?_lt h

/-- A fraction, if there is one, leaves no more text than there was. -/
theorem length_snd_fraction?_le {t : Text} {p : Text × Text} (h : fraction? t = some p) :
    p.2.length ≤ t.length := by
  unfold fraction? at h
  split at h
  · refine length_snd_le_of_map_prepend h fun q hq => ?_
    exact Nat.le_succ_of_le (Nat.le_of_lt (length_snd_digits?_lt hq))
  · cases h; simp

/-- An exponent, if there is one, leaves no more text than there was. -/
theorem length_snd_exponent?_le {t : Text} {p : Text × Text} (h : exponent? t = some p) :
    p.2.length ≤ t.length := by
  unfold exponent? at h
  split at h
  · cases h; simp
  split at h
  · split at h <;>
    · refine length_snd_le_of_map_prepend h fun q hq => ?_
      have := length_snd_digits?_lt hq
      simp only [List.length_cons] at this ⊢
      omega
  · cases h; simp

/-- A number leaves less text to read. -/
theorem length_snd_numeral?_lt {t : Text} {p : Text × Text} (h : numeral? t = some p) :
    p.2.length < t.length := by
  simp only [numeral?, Option.pure_def, Option.bind_eq_bind, Option.bind_eq_some_iff] at h
  obtain ⟨⟨whole, t₁⟩, hw, ⟨fraction, t₂⟩, hf, ⟨exponent, t₃⟩, he, h⟩ := h
  cases h
  have hw := length_snd_wholePart?_lt hw
  have hf := length_snd_fraction?_le hf
  have he := length_snd_exponent?_le he
  dsimp only at *
  split at hw <;> (simp at *; omega)

/-- A token leaves no more text than there was behind its first character. -/
theorem length_snd_token?_le {c : Char} {t : Text} {p : Token × Text} (h : token? c t = some p) :
    p.2.length ≤ t.length := by
  unfold token? at h
  split at h
  case h_7 =>
    obtain ⟨q, hq, rfl⟩ := Option.map_eq_some_iff.1 h
    exact length_snd_codes?_le hq
  case h_11 =>
    obtain ⟨q, hq, rfl⟩ := Option.map_eq_some_iff.1 h
    exact Nat.le_of_lt_succ (length_snd_numeral?_lt hq)
  all_goals (cases h; simp; try omega)

/-- The tokens of a text, if it is made of tokens and blanks. -/
def tokens? : Text → Option (List Token)
  | [] => some []
  | c :: t =>
    if isSpace c then tokens? t
    else match h : token? c t with
    | none => none
    | some p =>
      have := length_snd_token?_le h
      (tokens? p.2).map (p.1 :: ·)
termination_by t => t.length

/-! ### Values -/

/-- An array or object that is open. -/
inductive Container where
  /-- An array, with its items, newest first. -/
  | array (items : List Json)
  /-- An object, with its fields, newest first, and the key of the field whose value is due. -/
  | object (fields : List (Option Text × Json)) (key : Option Text)

/-- What the next token has to be. -/
inductive Due where
  /-- A value. -/
  | value
  /-- A value or the end of the array that has just been opened. -/
  | firstItem
  /-- A key of the object with these fields, or its end if there are none and `canEnd` holds. -/
  | key (fields : List (Option Text × Json)) (canEnd : Bool)
  /-- The colon after a key. -/
  | colon (fields : List (Option Text × Json)) (key : Option Text)
  /-- Whatever may follow a complete value. -/
  | after (v : Json)

/-- The object with the given fields, newest first, if all of them have keys. -/
def objectWith (fields : List (Option Text × Json)) : Json :=
  match fields.reverse.mapM fun f => f.1.map (·, f.2) with
  | some fields => object fields
  | none => illFormed

/-- The value that tokens denote when the given containers are open, innermost first. -/
def ofTokens? : Due → List Container → List Token → Option Json
  | .after v, [], [] => some v
  | .after v, .array items :: outer, .comma :: ts => ofTokens? .value (.array (v :: items) :: outer) ts
  | .after v, .array items :: outer, .closeBracket :: ts =>
    ofTokens? (.after (.array (v :: items).reverse)) outer ts
  | .after v, .object fields key :: outer, .comma :: ts =>
    ofTokens? (.key ((key, v) :: fields) false) outer ts
  | .after v, .object fields key :: outer, .closeBrace :: ts =>
    ofTokens? (.after (objectWith ((key, v) :: fields))) outer ts
  | .firstItem, outer, .closeBracket :: ts => ofTokens? (.after (.array [])) outer ts
  | .key fields canEnd, outer, .closeBrace :: ts =>
    if canEnd then ofTokens? (.after (objectWith fields)) outer ts else none
  | .key fields _, outer, .string k :: ts => ofTokens? (.colon fields k) outer ts
  | .colon fields key, outer, .colon :: ts => ofTokens? .value (.object fields key :: outer) ts
  | .value, outer, .string t :: ts => ofTokens? (.after (stringWith t)) outer ts
  | .value, outer, .scalar v :: ts => ofTokens? (.after v) outer ts
  | .value, outer, .openBracket :: ts => ofTokens? .firstItem outer ts
  | .value, outer, .openBrace :: ts => ofTokens? (.key [] true) outer ts
  | .firstItem, outer, .string t :: ts => ofTokens? (.after (stringWith t)) (.array [] :: outer) ts
  | .firstItem, outer, .scalar v :: ts => ofTokens? (.after v) (.array [] :: outer) ts
  | .firstItem, outer, .openBracket :: ts => ofTokens? .firstItem (.array [] :: outer) ts
  | .firstItem, outer, .openBrace :: ts => ofTokens? (.key [] true) (.array [] :: outer) ts
  | _, _, _ => none

/-- The JSON value that a text denotes. -/
def read? (t : Text) : Option Json := do
  ofTokens? .value [] (← tokens? t)

/-! ### Parts of values -/

/-- The value of the first field with the given key, if the value is an object with one. -/
def field? (key : Text) : Json → Option Json
  | object fields => fields.lookup key
  | _ => none

/-- The natural number that a value is. -/
def toNat? : Json → Option Nat
  | number n => if n.all Char.isDigit then some (Text.digitsValue n) else none
  | _ => none

/-- The text of a string. -/
def toText? : Json → Option Text
  | string t => some t
  | _ => none

/-- The items of an array. -/
def toList? : Json → Option (List Json)
  | array items => some items
  | _ => none

/-- The truth value that a value is. -/
def toBool? : Json → Option Bool
  | bool b => some b
  | _ => none

end StyleBlocks.Json
