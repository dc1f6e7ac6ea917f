import StyleBlocks.Block.Placeholder
import StyleBlocks.Proofs.Text.Indent

/-!
# Atoms of style text

Style text is made of **atoms**: single characters, escape pairs and placeholders. Each is a piece
of its own, so that a list of atoms tells more than its text: where placeholders are, and which
backslash belongs to which character. What is done to the text of a list of atoms is done to the
list: finding the placeholders in it glues the other atoms together, as long as no placeholder has
come about by chance.

## Main results

* `pieces_texts`: the pieces of the text of atoms are the atoms, glued together.
* `findAll_texts`: the placeholders in the text of atoms are those among the atoms.
-/

namespace StyleBlocks.Placeholder

/-- The texts of pieces put together. -/
def texts (m : List Piece) : Text :=
  m.flatMap Piece.text

/-- The characters of a text, each as a piece. -/
def chars (t : Text) : List Piece :=
  t.map fun c => .literal [c]

/-- A piece of style text that is not cut. -/
inductive IsAtom : Piece → Prop
  | char (c : Char) : IsAtom (.literal [c])
  | pair (c : Char) (hc : c ≠ '\n') : IsAtom (.literal ['\\', c])
  | hole (i : Nat) (hi : i < indexLimit) : IsAtom (.hole i (create i))

/-- Whether a piece is text. -/
def Piece.isLiteral : Piece → Bool
  | literal _ => true
  | hole .. => false

/-- No atom is empty. -/
theorem IsAtom.text_ne_nil {a : Piece} (h : IsAtom a) : a.text ≠ [] := by
  cases h <;> exact List.cons_ne_nil _ _

/-- No text between placeholders holds the word that marks them. -/
def Unmarked (m : List Piece) : Prop :=
  ∀ lits, lits <:+: m → (∀ a ∈ lits, a.isLiteral = true) → ¬ mark <:+: texts lits

/-- Pieces with neighbouring texts grown together. -/
def glue : List Piece → List Piece
  | [] => []
  | .literal t :: m => consLiteral t (glue m)
  | .hole i t :: m => .hole i t :: glue m

section

variable {m u v : List Piece} {a : Piece}

@[simp] theorem texts_nil : texts [] = [] := rfl

@[simp] theorem texts_cons (a : Piece) (m : List Piece) : texts (a :: m) = a.text ++ texts m := rfl

/-- Texts are put together piece by piece. -/
@[simp] theorem texts_append (u v : List Piece) : texts (u ++ v) = texts u ++ texts v :=
  List.flatMap_append

@[simp] theorem text_literal (t : Text) : (Piece.literal t).text = t := rfl

@[simp] theorem text_hole (i : Nat) (t : Text) : (Piece.hole i t).text = t := rfl

@[simp] theorem chars_nil : chars [] = [] := rfl

@[simp] theorem chars_cons (c : Char) (t : Text) : chars (c :: t) = .literal [c] :: chars t := rfl

/-- The characters of two texts are those of the one and those of the other. -/
@[simp] theorem chars_append (s t : Text) : chars (s ++ t) = chars s ++ chars t :=
  List.map_append

/-- The characters of a text make it up. -/
@[simp] theorem texts_chars (t : Text) : texts (chars t) = t := by
  induction t with
  | nil => rfl
  | cons c t ih => simp [ih]

/-- A run of unmarked pieces is unmarked. -/
theorem Unmarked.of_infix (h : Unmarked m) (hu : u <:+: m) : Unmarked u :=
  fun lits hl => h lits (hl.trans hu)

/-! ### Placeholders -/

/-- A numeral is made of digits. -/
theorem isDigit_of_mem_ofNat {c : Char} {n : Nat} (h : c ∈ Text.ofNat n) : c.isDigit = true :=
  Nat.isDigit_of_mem_toDigits (b := 10) (n := n) (by decide) (by decide) h

/-- The text of a placeholder has no other characters than its marks and digits. -/
theorem notMem_create {c : Char} (hdigit : c.isDigit = false) (hc : c ∉ '/' :: '*' :: ':' :: mark)
    (i : Nat) : c ∉ create i := by
  intro h
  have hdigits : c ∉ Text.ofNat i := fun hm => by simp [isDigit_of_mem_ofNat hm] at hdigit
  simp only [List.mem_cons, not_or] at hc
  simp [create, hc, hdigits] at h

/-- A numeral denotes its number. -/
theorem digitsValue_ofNat (n : Nat) : Text.digitsValue (Text.ofNat n) = n := by
  rw [Text.digitsValue, Text.ofNat, ← Nat.ofDigitChars_eq_foldl, Nat.ofDigitChars_ten_toDigits]

/-- The text that stands for a placeholder with some digits. -/
def spelled (digits : Text) : Text :=
  '/' :: '*' :: mark ++ ':' :: digits ++ ['*', '/']

/-- Digits between the marks are a placeholder. -/
theorem readToken?_spelled {digits : Text} (hne : digits ≠ [])
    (hdigits : ∀ c ∈ digits, c.isDigit = true) (t : Text) :
    readToken? (spelled digits ++ t) = some ⟨spelled digits, Text.digitsValue digits, t⟩ := by
  have htake : (digits ++ '*' :: '/' :: t).takeWhile Char.isDigit = digits := by
    rw [List.takeWhile_append_of_pos hdigits, List.takeWhile_cons_of_neg (by decide),
      List.append_nil]
  have hdrop : (digits ++ '*' :: '/' :: t).dropWhile Char.isDigit = '*' :: '/' :: t := by
    rw [List.dropWhile_append_of_pos hdigits, List.dropWhile_cons_of_neg (by decide)]
  have hopen : Text.dropStart? ('/' :: '*' :: mark ++ [':']) (spelled digits ++ t) =
      some (digits ++ '*' :: '/' :: t) := by
    rw [Text.dropStart?_eq_some_iff]
    simp [spelled]
  have hclose : Text.dropStart? ['*', '/'] ('*' :: '/' :: t) = some t := by
    rw [Text.dropStart?_eq_some_iff]
    rfl
  simp only [readToken?, hopen, Option.bind_eq_bind, Option.bind_some, htake, hdrop, hclose]
  simp [hne, spelled]

/-- Between its first and its last character a placeholder has no slash. -/
theorem exists_spelled_eq {digits : Text} (hdigits : ∀ c ∈ digits, c.isDigit = true) :
    ∃ inner, spelled digits = '/' :: (inner ++ ['/']) ∧ '/' ∉ inner := by
  refine ⟨'*' :: mark ++ ':' :: digits ++ ['*'], by simp [spelled], fun h => ?_⟩
  have hslash : '/' ∉ digits := fun hs => absurd (hdigits _ hs) (by decide)
  have hmark : '/' ∉ mark := by decide
  simp [hslash, hmark] at h

/-- A placeholder begins and ends with a slash, and there is none in between. -/
theorem exists_create_eq (i : Nat) : ∃ inner, create i = '/' :: (inner ++ ['/']) ∧ '/' ∉ inner :=
  exists_spelled_eq fun _ hc => isDigit_of_mem_ofNat hc

/-- A placeholder is read as itself. -/
theorem readToken?_create (i : Nat) (t : Text) :
    readToken? (create i ++ t) = some ⟨create i, i, t⟩ := by
  have hne : Text.ofNat i ≠ [] := Nat.toDigits_ne_nil
  have hspelled := readToken?_spelled hne (fun c hc => isDigit_of_mem_ofNat hc) t
  rw [digitsValue_ofNat] at hspelled
  exact hspelled

/-- A text without a slash in the text of atoms stands in front of the first placeholder. -/
theorem exists_literals_of_prefix {p : Text} (hm : ∀ a ∈ m, IsAtom a) (hp : '/' ∉ p)
    (h : p <+: texts m) :
    ∃ lits, lits <+: m ∧ (∀ a ∈ lits, a.isLiteral = true) ∧ p <+: texts lits := by
  induction m generalizing p with
  | nil => exact ⟨[], List.nil_prefix, by simp, h⟩
  | cons a m ih =>
      obtain ⟨r, hr⟩ := h
      cases hm a List.mem_cons_self with
      | hole i hi =>
          cases p with
          | nil => exact ⟨[], List.nil_prefix, by simp, List.nil_prefix⟩
          | cons c p =>
              have hc : c = '/' := by simpa [create] using congrArg List.head? hr
              exact absurd List.mem_cons_self (hc ▸ hp)
      | char c | pair c =>
          rw [texts_cons, text_literal] at hr
          rcases List.append_eq_append_iff.1 hr with ⟨q, hq, -⟩ | ⟨q, hq, hrest⟩
          · exact ⟨[_], ⟨m, rfl⟩, by simp [Piece.isLiteral], q, by simp [hq]⟩
          · obtain ⟨lits, ⟨v, hv⟩, hlit, hpre⟩ := ih (fun a ha => hm a (List.mem_cons_of_mem _ ha))
              (p := q) (fun hs => hp (by simp [hq, hs])) ⟨r, hrest.symm⟩
            refine ⟨_ :: lits, ⟨v, by rw [List.cons_append, hv]⟩,
              by simpa [Piece.isLiteral] using hlit, ?_⟩
            rw [hq, texts_cons, text_literal]
            exact (List.prefix_append_right_inj _).2 hpre

/-- No placeholder starts with a character in front of atoms that is part of no placeholder. -/
theorem readToken?_cons {c : Char} (hm : ∀ a ∈ m, IsAtom a) (hu : Unmarked m) :
    readToken? (c :: texts m) = none := by
  by_contra hne
  obtain ⟨k, hk⟩ := Option.ne_none_iff_exists'.1 hne
  simp only [readToken?, Option.bind_eq_bind, Option.bind_eq_some_iff] at hk
  obtain ⟨r, hr, -⟩ := hk
  rw [Text.dropStart?_eq_some_iff] at hr
  have hprefix : '*' :: mark ++ [':'] <+: texts m := ⟨r, by simpa using (List.cons.inj hr).2.symm⟩
  obtain ⟨lits, hlits, hall, hpre⟩ := exists_literals_of_prefix hm (by decide) hprefix
  refine hu lits hlits.isInfix hall (List.IsInfix.trans ?_ hpre.isInfix)
  exact ⟨['*'], [':'], rfl⟩

/-! ### Pieces -/

/-- Text in front of text grows together with it. -/
@[simp] theorem consLiteral_consLiteral (s t : Text) (ps : List Piece) :
    consLiteral s (consLiteral t ps) = consLiteral (s ++ t) ps := by
  cases ps with
  | nil => rfl
  | cons p ps => cases p <;> simp [consLiteral]

/-- A character in front of unmarked atoms is read by itself, as it begins no placeholder that is
not one of them. -/
theorem pieces_cons {c : Char} (hm : ∀ a ∈ m, IsAtom a) (hu : Unmarked m) :
    pieces (c :: texts m) = consLiteral [c] (pieces (texts m)) := by
  rw [pieces]
  split
  · next k hk => simp [readToken?_cons hm hu] at hk
  · rfl

/-- A character that is no slash is read by itself. -/
theorem pieces_cons_of_ne {c : Char} (hc : c ≠ '/') (t : Text) :
    pieces (c :: t) = consLiteral [c] (pieces t) := by
  rw [pieces]
  split
  · next k hk =>
      simp only [readToken?, Option.bind_eq_bind, Option.bind_eq_some_iff] at hk
      obtain ⟨r, hr, -⟩ := hk
      rw [Text.dropStart?_eq_some_iff] at hr
      exact absurd (List.cons.inj hr).1 hc
  · rfl

/-- A placeholder is read as a hole, whatever is behind it. -/
theorem pieces_create {i : Nat} (hi : i < indexLimit) (t : Text) :
    pieces (create i ++ t) = .hole i (create i) :: pieces t := by
  have hread := readToken?_create i t
  have hne : create i ++ t = '/' :: (create i ++ t).tail := rfl
  rw [hne] at hread ⊢
  rw [pieces]
  split
  · next k hk =>
      rw [hread] at hk
      cases hk
      simp [hi]
  · next hk => simp [hread] at hk

/-- **The pieces of the text of atoms** are the atoms, with neighbouring texts grown together. -/
theorem pieces_texts (hm : ∀ a ∈ m, IsAtom a) (hu : Unmarked m) : pieces (texts m) = glue m := by
  induction m with
  | nil => rw [texts_nil, pieces, glue]
  | cons a m ih =>
      have hm' : ∀ a ∈ m, IsAtom a := fun b hb => hm b (List.mem_cons_of_mem _ hb)
      have hu' : Unmarked m := hu.of_infix (List.suffix_cons a m).isInfix
      have ih := ih hm' hu'
      cases hm a List.mem_cons_self with
      | char c => simp [glue, pieces_cons hm' hu', ih]
      | pair c hc =>
          have hback := pieces_cons_of_ne (c := '\\') (by decide) (c :: texts m)
          rw [texts_cons, text_literal, List.cons_append, List.cons_append, List.nil_append, hback,
            pieces_cons hm' hu', ih, consLiteral_consLiteral]
          rfl
      | hole i hi => simp [glue, pieces_create hi, ih]

/-- The placeholders in text that grows together stand where they stood. -/
theorem foundFrom_consLiteral (offset : Nat) (t : Text) (ps : List Piece) :
    foundFrom offset (consLiteral t ps) = foundFrom (offset + Text.byteSize t) ps := by
  cases ps with
  | nil => rfl
  | cons p ps =>
      cases p with
      | literal u => simp [consLiteral, foundFrom, Nat.add_assoc]
      | hole i u => rfl

/-- Placeholders are found where they are when neighbouring texts have grown together. -/
theorem foundFrom_glue (offset : Nat) (m : List Piece) :
    foundFrom offset (glue m) = foundFrom offset m := by
  induction m generalizing offset with
  | nil => rfl
  | cons a m ih =>
      cases a with
      | literal t => rw [glue, foundFrom_consLiteral, ih, foundFrom]
      | hole i t => rw [glue, foundFrom, foundFrom, ih]

/-- **The placeholders in the text of atoms** are those among the atoms. -/
theorem findAll_texts (hm : ∀ a ∈ m, IsAtom a) (hu : Unmarked m) :
    findAll (texts m) = foundFrom 0 m := by
  rw [findAll, pieces_texts hm hu, foundFrom_glue]

end

end StyleBlocks.Placeholder
