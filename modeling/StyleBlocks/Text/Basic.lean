/-!
# Texts and byte offsets

A **text** is the list of its characters. Offsets into a text count the bytes of its UTF-8 form:
the operations here measure and cut a text in bytes, while every piece they return is a list of
whole characters again.

## Main statements

* `Text.byteSize_append`: sizes add up.
* `Text.takeBytes_append_dropBytes`: a cut loses nothing.
* `Text.takeBytes_append`, `Text.dropBytes_append`: a cut at a character boundary gives back the
  two sides.
* `Text.slice?_append`: what stands between two cuts is the text between them.
* `Text.joinLines_lines`: joining the lines of a text with line feeds gives the text back.
-/

namespace StyleBlocks

/-- A **text**: the list of its characters. -/
abbrev Text := List Char

namespace Text

/-! ### Sizes -/

/-- The number of bytes of a text in UTF-8. -/
def byteSize : Text → Nat
  | [] => 0
  | c :: t => c.utf8Size + byteSize t

@[simp] theorem byteSize_nil : byteSize [] = 0 := rfl

@[simp] theorem byteSize_cons (c : Char) (t : Text) :
    byteSize (c :: t) = c.utf8Size + byteSize t := rfl

/-- The first characters, those of ASCII, take one byte each. -/
@[simp] theorem utf8Size_of_lt {c : Char} (h : c.toNat < 128) : c.utf8Size = 1 :=
  Char.utf8Size_eq_one_iff.2 (by rw [UInt32.le_iff_toNat_le]; exact Nat.le_of_lt_succ h)

/-- The size of two texts is that of the one and that of the other. -/
@[simp] theorem byteSize_append (s t : Text) : byteSize (s ++ t) = byteSize s + byteSize t := by
  induction s with
  | nil => simp
  | cons c s ih => simp [ih, Nat.add_assoc]

/-! ### Cuts -/

/-- The characters of a text that start before byte `n`. -/
def takeBytes (n : Nat) : Text → Text
  | [] => []
  | c :: t => if n = 0 then [] else c :: takeBytes (n - c.utf8Size) t

/-- The characters of a text that start at byte `n` or later. -/
def dropBytes (n : Nat) : Text → Text
  | [] => []
  | c :: t => if n = 0 then c :: t else dropBytes (n - c.utf8Size) t

/-- A front of no bytes is empty. -/
@[simp] theorem takeBytes_zero (t : Text) : takeBytes 0 t = [] := by
  cases t <;> simp [takeBytes]

/-- A text without a front of no bytes is the text. -/
@[simp] theorem dropBytes_zero (t : Text) : dropBytes 0 t = t := by
  cases t <;> simp [dropBytes]

/-- A cut loses nothing, wherever it falls. -/
theorem takeBytes_append_dropBytes (n : Nat) (t : Text) :
    takeBytes n t ++ dropBytes n t = t := by
  induction t generalizing n with
  | nil => rfl
  | cons c t ih => by_cases h : n = 0 <;> simp [takeBytes, dropBytes, h, ih]

/-- The bytes of a part at the front are that part. -/
theorem takeBytes_append (s t : Text) : takeBytes (byteSize s) (s ++ t) = s := by
  induction s with
  | nil => simp
  | cons c s ih =>
    have h := Nat.ne_of_gt (Char.utf8Size_pos c)
    simp [takeBytes, h, ih]

/-- A text without the bytes of a part at the front is the rest. -/
theorem dropBytes_append (s t : Text) : dropBytes (byteSize s) (s ++ t) = t := by
  induction s with
  | nil => simp
  | cons c s ih =>
    have h := Nat.ne_of_gt (Char.utf8Size_pos c)
    simp [dropBytes, h, ih]

/-- The characters of a text between two byte offsets. -/
def slice (start stop : Nat) (t : Text) : Text :=
  takeBytes (stop - start) (dropBytes start t)

/-- A **boundary** of a text is an offset at which a character starts, or the end of the text. -/
def IsBoundary (t : Text) (n : Nat) : Prop :=
  byteSize (takeBytes n t) = n

instance (t : Text) (n : Nat) : Decidable (IsBoundary t n) :=
  inferInstanceAs (Decidable (_ = _))

/-- The characters between two byte offsets, if these are boundaries in order. -/
def slice? (start stop : Nat) (t : Text) : Option Text :=
  if start ≤ stop ∧ IsBoundary t start ∧ IsBoundary t stop then some (slice start stop t) else none

/-- What stands between a cut and another one behind it. -/
theorem slice_append (p g s : Text) :
    slice (byteSize p) (byteSize (p ++ g)) (p ++ g ++ s) = g := by
  have hsize : byteSize (p ++ g) - byteSize p = byteSize g := by simp
  rw [slice, hsize, List.append_assoc, dropBytes_append, takeBytes_append]

/-- Cuts are boundaries. -/
theorem slice?_append (p g s : Text) :
    slice? (byteSize p) (byteSize (p ++ g)) (p ++ g ++ s) = some g := by
  have hp : IsBoundary (p ++ g ++ s) (byteSize p) := by
    rw [IsBoundary, List.append_assoc, takeBytes_append]
  have hg : IsBoundary (p ++ g ++ s) (byteSize (p ++ g)) := by
    rw [IsBoundary, takeBytes_append]
  rw [slice?, if_pos ⟨by simp, hp, hg⟩, slice_append]

/-! ### Beginnings and ends -/

/-- What follows `p` in a text that starts with it. -/
def dropStart? (p t : Text) : Option Text :=
  if p <+: t then some (t.drop p.length) else none

/-- What precedes `p` in a text that ends with it. -/
def dropEnd? (p t : Text) : Option Text :=
  if p <:+ t then some (t.take (t.length - p.length)) else none

/-- A part can be dropped from the front just if the text starts with it. -/
theorem dropStart?_eq_some_iff {p t r : Text} : dropStart? p t = some r ↔ t = p ++ r := by
  rw [dropStart?]
  constructor
  · intro h
    split at h
    · next hp =>
      cases h
      exact (List.prefix_iff_eq_append.1 hp).symm
    · contradiction
  · rintro rfl
    simp

/-- A part can be dropped from the end just if the text ends with it. -/
theorem dropEnd?_eq_some_iff {p t r : Text} : dropEnd? p t = some r ↔ t = r ++ p := by
  rw [dropEnd?]
  constructor
  · intro h
    split at h
    · next hp =>
      cases h
      exact (List.suffix_iff_eq_append.1 hp).symm
    · contradiction
  · rintro rfl
    simp

/-! ### Runs -/

/-- The longest run of characters with a property at the start of a text, if there is one, and the
rest. -/
def run? (p : Char → Bool) (t : Text) : Option (Text × Text) :=
  match t.takeWhile p with
  | [] => none
  | r => some (r, t.dropWhile p)

/-- A text without what it starts with is no longer. -/
theorem length_dropWhile_le (p : Char → Bool) (t : Text) : (t.dropWhile p).length ≤ t.length :=
  (List.dropWhile_suffix _).length_le

/-- A run that is read leaves less text. -/
theorem length_snd_run?_lt {p : Char → Bool} {t : Text} {r : Text × Text} (h : run? p t = some r) :
    r.2.length < t.length := by
  rw [run?] at h
  split at h
  · contradiction
  · next ht =>
    cases h
    have := congrArg List.length (List.takeWhile_append_dropWhile (p := p) (l := t))
    have := List.length_pos_iff.2 ht
    simp only [List.length_append] at *
    omega

/-! ### Lines -/

/-- The parts of a text between its line feeds; one more than there are line feeds. -/
def lines : Text → List Text
  | [] => [[]]
  | c :: t =>
    if c = '\n' then [] :: lines t
    else match lines t with
      | [] => [[c]]
      | l :: ls => (c :: l) :: ls

/-- Every text has a line. -/
theorem lines_ne_nil (t : Text) : lines t ≠ [] := by
  cases t with
  | nil => simp [lines]
  | cons c t =>
    simp only [lines]
    split
    · simp
    · split <;> simp

/-- Lines joined with line feeds. -/
def joinLines : List Text → Text
  | [] => []
  | [l] => l
  | l :: m :: ls => l ++ '\n' :: joinLines (m :: ls)

/-- The lines of a text make it up. -/
theorem joinLines_lines (t : Text) : joinLines (lines t) = t := by
  induction t with
  | nil => rfl
  | cons c t ih =>
    obtain ⟨l, ls, h⟩ := List.exists_cons_of_ne_nil (lines_ne_nil t)
    rw [h] at ih
    by_cases hc : c = '\n'
    · simp [lines, hc, h, joinLines, ih]
    · cases ls with
      | nil => simpa [lines, hc, h, joinLines] using ih
      | cons m ls => simpa [lines, hc, h, joinLines] using ih

/-! ### Decimal numerals -/

/-- The decimal numeral of a number. -/
def ofNat (n : Nat) : Text :=
  Nat.toDigits 10 n

/-- The number that a list of decimal digits denotes. -/
def digitsValue (digits : Text) : Nat :=
  digits.foldl (fun n d => 10 * n + (d.toNat - '0'.toNat)) 0

end Text

end StyleBlocks
