import StyleBlocks.Json.Reader
import StyleBlocks.Yaml.Basic

/-!
# YAML tags

A tag is written out in full between angle brackets, or starts with a handle that is short for the
beginning of it. An octet that is no character of tags is written as a percent sign and two hexadecimal
digits; the octets of one character in UTF-8 stand together. A tag ends in front of a null character.

Tags are kept by their octets, one character for each.
-/

namespace StyleBlocks.Yaml

/-- A **tag** as it is written. -/
structure Tag where
  /-- The handle, or nothing if the tag is written out in full. -/
  handle : Text
  /-- What follows the handle. -/
  suffix : Text
deriving DecidableEq

/-- Characters of names. -/
def isNameChar (c : Char) : Bool :=
  c.isAlphanum || c == '_' || c == '-'

namespace Tag

/-- Characters of tags. -/
def isChar (c : Char) : Bool :=
  isNameChar c || ";/?:@&=+$.!~*\x27()".toList.contains c

/-- Characters of tags that are written out in full. -/
def isFullChar (c : Char) : Bool :=
  isChar c || c == ',' || c == '[' || c == ']'

/-! ### Octets -/

/-- How many octets of a character follow an octet, given how many were due when it came. -/
def following? (due octet : Nat) : Option Nat :=
  if 0 < due then if 0x80 ≤ octet ∧ octet < 0xc0 then some (due - 1) else none
  else if octet < 0x80 then some 0
  else if octet < 0xc0 then none
  else if octet < 0xe0 then some 1
  else if octet < 0xf0 then some 2
  else if octet < 0xf8 then some 3
  else none

/-- The octets at the start of a text, and the rest. Characters with the property `p` stand for
themselves, and others are escaped; `due` is how many escapes have to follow. -/
def octets? (p : Char → Bool) (due : Nat) : Text → Option (Text × Text)
  | '%' :: a :: b :: t => do
    let octet ← Json.hexValue? [a, b]
    let due ← following? due octet
    (octets? p due t).map (Json.prepend [Char.ofNat octet])
  | c :: t =>
    if 0 < due ∨ c = '%' then none
    else if p c then (octets? p 0 t).map (Json.prepend [c])
    else some ([], c :: t)
  | [] => if 0 < due then none else some ([], [])

/-- What precedes the first null character. -/
def beforeNull (t : Text) : Text :=
  t.takeWhile (· ≠ '\x00')

/-- The part of a tag at the start of a text, which is not empty, and the rest. -/
def part? (p : Char → Bool) (t : Text) : Option (Text × Text) := do
  let (part, rest) ← octets? p 0 t
  if part = [] then none else some (beforeNull part, rest)

/-- Octets leave no more text than there was. -/
theorem length_snd_octets?_le {p : Char → Bool} {due : Nat} {t : Text} {q : Text × Text}
    (h : octets? p due t = some q) : q.2.length ≤ t.length := by
  fun_induction octets? p due t generalizing q with
  | case1 due a b t ih =>
    simp only [Option.bind_eq_bind, Option.bind_eq_some_iff] at h
    obtain ⟨_, -, due, -, h⟩ := h
    have := Json.length_snd_le_of_map_prepend h fun q hq => ih due hq
    simp only [List.length_cons]
    omega
  | case2 | case5 => contradiction
  | case3 _ _ _ _ _ _ ih =>
    have := Json.length_snd_le_of_map_prepend h fun q hq => ih hq
    simp only [List.length_cons]
    omega
  | case4 | case6 => cases h; simp

/-- A part of a tag leaves no more text than there was. -/
theorem length_snd_part?_le {p : Char → Bool} {t : Text} {q : Text × Text} (h : part? p t = some q) :
    q.2.length ≤ t.length := by
  simp only [part?, Option.bind_eq_bind, Option.bind_eq_some_iff] at h
  obtain ⟨r, hr, h⟩ := h
  have := length_snd_octets?_le hr
  split at h
  · contradiction
  · cases h; exact this

/-! ### Tags -/

/-- The tag that is written out in full at the start of a text that follows an angle bracket, and the
rest. -/
def full? (t : Text) : Option (Tag × Text) := do
  let (suffix, rest) ← part? isFullChar t
  guard (rest.head? = some '>')
  return (⟨[], suffix⟩, rest.tail)

/-- The tag at the start of a text that follows an exclamation mark, and the rest. The handle goes up to
a second exclamation mark, if there is one after a name. An exclamation mark alone is a tag too. -/
def short? (t : Text) : Option (Tag × Text) :=
  match t.dropWhile isNameChar with
  | '!' :: u => (part? isChar u).map fun p => (⟨'!' :: t.takeWhile isNameChar ++ ['!'], p.1⟩, p.2)
  | _ => (octets? isChar 0 t).map fun p =>
    (if beforeNull p.1 = [] then ⟨[], ['!']⟩ else ⟨['!'], beforeNull p.1⟩, p.2)

/-- The tag at the start of a text that follows an exclamation mark, and the rest, which starts with a
blank or, in a flow collection, with a comma. -/
def read? (flow : Bool) (t : Text) : Option (Tag × Text) :=
  (if t.head? = some '<' then full? t.tail else short? t).filter fun p =>
    startsBlank p.2 || (flow && p.2.head? == some ',')

/-- A tag written out in full leaves no more text than there was. -/
theorem length_snd_full?_le {t : Text} {p : Tag × Text} (h : full? t = some p) :
    p.2.length ≤ t.length := by
  obtain ⟨⟨_, r⟩, hr, h⟩ := Option.bind_eq_some_iff.1 h
  obtain ⟨_, -, h⟩ := Option.bind_eq_some_iff.1 h
  have hle := length_snd_part?_le hr
  cases h
  refine Nat.le_trans ?_ hle
  rw [List.length_tail]
  exact Nat.sub_le _ _

/-- A short tag leaves no more text than there was. -/
theorem length_snd_short?_le {t : Text} {p : Tag × Text} (h : short? t = some p) :
    p.2.length ≤ t.length := by
  have hd := Text.length_dropWhile_le isNameChar t
  rw [short?] at h
  split at h
  · next hu =>
    obtain ⟨q, hq, rfl⟩ := Option.map_eq_some_iff.1 h
    have := length_snd_part?_le hq
    simp only [hu, List.length_cons] at *
    omega
  · obtain ⟨q, hq, rfl⟩ := Option.map_eq_some_iff.1 h
    exact length_snd_octets?_le hq

/-- A tag leaves no more text than there was. -/
theorem length_snd_read?_le {flow : Bool} {t : Text} {p : Tag × Text} (h : read? flow t = some p) :
    p.2.length ≤ t.length := by
  have h := (Option.filter_eq_some_iff.1 h).1
  split at h
  · have := length_snd_full?_le h
    simp only [List.length_tail] at this
    omega
  · exact length_snd_short?_le h

end Tag

end StyleBlocks.Yaml
