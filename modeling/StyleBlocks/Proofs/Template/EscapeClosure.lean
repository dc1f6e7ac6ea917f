import StyleBlocks.Proofs.Template.RawText

/-!
# Escaping makes text raw

Escaping takes every text to raw text, leaves raw text as it is and puts in nothing but backslashes.
What counts as raw does not depend on whether a text is read by characters or by the bytes of its
UTF-8 form: after a backslash one byte is passed over instead of one character, but the bytes that are
left of that character are none that matter.

Encoding takes texts to raw text too, and to such from which they can be read back: every backslash in
what it gives begins an escape pair of its own making.

## Main results

* `isRaw_escape`: escaped text is raw.
* `escape_closure`: escaping is a closure onto raw text.
* `segmentEnd_utf8`: a literal part ends at the same place when it is read byte by byte.
* `encode_spec`: encoded text is raw, and decoding it gives the text back.
-/

namespace StyleBlocks.Template.RawText

section

variable {b : UInt8} {bs : List UInt8} {c : Char} {t : Text}

/-! ### Escaped text -/

/-- What escaping puts in front of a text is no brace. -/
theorem head?_escape_ne_brace (h : t.head? ≠ some '{') : (escape t).head? ≠ some '{' := by
  fun_cases escape t <;> simp_all

/-- **Escaped text is raw.** -/
theorem isRaw_escape (t : Text) : IsRaw (escape t) := by
  fun_induction escape t with
  | case1 => rfl
  | case2 => rfl
  | case3 c t ih => exact isRaw_pair.2 ih
  | case4 t ih => exact isRaw_pair.2 ih
  | case5 t ih =>
      -- The brace behind the pair is a character like any other.
      exact isRaw_pair.2 ((isRaw_cons (by decide) (by decide) (by simp)).2 ih)
  | case6 c t hend hpair hq hh ih =>
      refine (isRaw_cons (ne_backslash hend hpair) hq fun hc => ?_).2 ih
      exact head?_escape_ne_brace (head?_ne_brace hh hc)

/-- Escaping loses no character. -/
theorem sublist_escape (t : Text) : t.Sublist (escape t) := by
  fun_induction escape t with
  | case1 => exact .slnil
  | case2 => exact .cons_cons _ (List.nil_sublist _)
  | case3 c t ih => exact (ih.cons_cons c).cons_cons '\\'
  | case4 t ih => exact (ih.cons_cons '\x60').cons '\\'
  | case5 t ih => exact ((ih.cons_cons '{').cons_cons '$').cons '\\'
  | case6 c t _ _ _ _ ih => exact ih.cons_cons c

/-- Escaping puts in nothing but backslashes. -/
theorem filter_escape (t : Text) : (escape t).filter (· ≠ '\\') = t.filter (· ≠ '\\') := by
  fun_induction escape t with
  | case1 => rfl
  | case2 => rfl
  | case3 c t ih => simp_all [List.filter_cons]
  | case4 t ih => simp_all
  | case5 t ih => simp_all
  | case6 c t _ _ _ _ ih => simp_all [List.filter_cons]

/-! ### Literal parts in bytes -/

/-- The bytes of a text in UTF-8. -/
def utf8 (t : Text) : List UInt8 :=
  t.flatMap String.utf8EncodeChar

/-- The number of bytes in front of the delimiter that ends a literal part, and the delimiter, when the
part is read byte by byte: a backslash takes the next byte with it. -/
def segmentEnd : List UInt8 → Option (Nat × Delimiter)
  | [] => none
  | [0x5c] => none
  | 0x5c :: _ :: bs => (segmentEnd bs).map fun e => (e.1 + 2, e.2)
  | 0x60 :: _ => some (0, .backtick)
  | 0x24 :: 0x7b :: _ => some (0, .hole)
  | _ :: bs => (segmentEnd bs).map fun e => (e.1 + 1, e.2)

/-- The bytes of a text are those of its first character and those behind it. -/
theorem utf8_cons (c : Char) (t : Text) : utf8 (c :: t) = String.utf8EncodeChar c ++ utf8 t :=
  rfl

/-- A number that fits into a byte and is not below 128 is a byte that is not. -/
theorem le_ofNat_of_le {n : Nat} (h : 128 ≤ n) (h' : n < 256) : (128 : UInt8) ≤ UInt8.ofNat n := by
  rw [UInt8.le_iff_toNat_le, UInt8.toNat_ofNat_of_lt' h']
  exact h

/-- A character is a byte, or all its bytes are above those of such characters. -/
theorem utf8EncodeChar_cases (c : Char) :
    (c.toNat < 128 ∧ String.utf8EncodeChar c = [UInt8.ofNat c.toNat]) ∨
      ∀ b ∈ String.utf8EncodeChar c, 128 ≤ b := by
  by_cases hc : c.val.toNat ≤ 127
  · refine Or.inl ⟨Nat.lt_succ_of_le hc, ?_⟩
    simp only [String.utf8EncodeChar, if_pos hc]
    rfl
  · refine Or.inr fun b hb => ?_
    simp only [String.utf8EncodeChar, if_neg hc] at hb
    obtain ⟨n, rfl, hn⟩ : ∃ n, b = UInt8.ofNat n ∧ 128 ≤ n ∧ n < 256 := by
      split at hb
      · simp only [List.mem_cons, List.not_mem_nil, or_false] at hb
        rcases hb with rfl | rfl <;> exact ⟨_, rfl, by omega⟩
      split at hb
      · simp only [List.mem_cons, List.not_mem_nil, or_false] at hb
        rcases hb with rfl | rfl | rfl <;> exact ⟨_, rfl, by omega⟩
      · simp only [List.mem_cons, List.not_mem_nil, or_false] at hb
        rcases hb with rfl | rfl | rfl | rfl <;> exact ⟨_, rfl, by omega⟩
    exact le_ofNat_of_le hn.1 hn.2

/-- A byte that is no delimiter and no backslash belongs to the literal part. -/
theorem segmentEnd_cons (hb : b ≠ 0x5c) (hq : b ≠ 0x60) (hh : b = 0x24 → bs.head? ≠ some 0x7b) :
    segmentEnd (b :: bs) = (segmentEnd bs).map fun e => (e.1 + 1, e.2) := by
  rw [segmentEnd]
  · exact fun h _ => hb h
  · exact fun _ _ h _ => hb h
  · exact hq
  · rintro cs rfl rfl
    exact hh rfl rfl

/-- So do all bytes of characters that are more than one byte. -/
theorem segmentEnd_append (h : ∀ b ∈ bs, 128 ≤ b) (cs : List UInt8) :
    segmentEnd (bs ++ cs) = (segmentEnd cs).map fun e => (e.1 + bs.length, e.2) := by
  induction bs with
  | nil => simp
  | cons b bs ih =>
      obtain ⟨hb, h⟩ := List.forall_mem_cons.1 h
      have hne : ∀ n : UInt8, n < 128 → b ≠ n := by
        rintro n hn rfl
        exact absurd hb (UInt8.not_le.2 hn)
      rw [List.cons_append, segmentEnd_cons (hne _ (by decide)) (hne _ (by decide))
        (fun hd => absurd hd (hne _ (by decide))), ih h, Option.map_map]
      simp [Function.comp_def, Nat.add_assoc]

/-- Characters of one byte each are told apart by these bytes. -/
theorem eq_of_ofNat_toNat {c d : Char} (hc : c.toNat < 128) (hd : d.toNat < 128)
    (h : UInt8.ofNat c.toNat = UInt8.ofNat d.toNat) : c = d := by
  have h := congrArg UInt8.toNat h
  rw [UInt8.toNat_ofNat_of_lt' (Nat.lt_trans hc (by decide)),
    UInt8.toNat_ofNat_of_lt' (Nat.lt_trans hd (by decide))] at h
  exact Char.toNat_inj.1 h

/-- The first byte of a text tells whether a brace begins it. -/
theorem head?_eq_of_utf8 (h : (utf8 t).head? = some 0x7b) : t.head? = some '{' := by
  cases t with
  | nil => simp [utf8] at h
  | cons c t =>
      rw [utf8_cons] at h
      rcases utf8EncodeChar_cases c with ⟨hc, he⟩ | hbytes
      · rw [he, List.singleton_append, List.head?_cons, Option.some.injEq] at h
        rw [eq_of_ofNat_toNat (d := '{') hc (by decide) h, List.head?_cons]
      · cases he : String.utf8EncodeChar c with
        | nil => exact absurd he String.utf8EncodeChar_ne_nil
        | cons b bs =>
            rw [he, List.cons_append, List.head?_cons, Option.some.injEq] at h
            exact absurd (hbytes b (by simp [he])) (by rw [h]; decide)

/-- A character that is no delimiter and no backslash belongs to the literal part. -/
theorem segmentEnd_char (hb : c ≠ '\\') (hq : c ≠ '\x60') (hh : c = '$' → t.head? ≠ some '{') :
    segmentEnd (String.utf8EncodeChar c ++ utf8 t) =
      (segmentEnd (utf8 t)).map fun e => (e.1 + c.utf8Size, e.2) := by
  have hsize := String.length_utf8EncodeChar c
  rcases utf8EncodeChar_cases c with ⟨hc, he⟩ | hbytes
  · rw [← hsize, he]
    refine segmentEnd_cons (fun h => hb ?_) (fun h => hq ?_) fun h hhead => ?_
    · exact eq_of_ofNat_toNat hc (by decide) h
    · exact eq_of_ofNat_toNat hc (by decide) h
    · exact hh (eq_of_ofNat_toNat hc (by decide) h) (head?_eq_of_utf8 hhead)
  · rw [segmentEnd_append hbytes, hsize]

/-- A backslash takes the next character with it: the first byte of the character is passed over, and
the others are not told from those of a literal part. -/
theorem segmentEnd_pair (c : Char) (t : Text) :
    segmentEnd (0x5c :: (String.utf8EncodeChar c ++ utf8 t)) =
      (segmentEnd (utf8 t)).map fun e => (e.1 + (1 + c.utf8Size), e.2) := by
  have hsize := String.length_utf8EncodeChar c
  cases he : String.utf8EncodeChar c with
  | nil => exact absurd he String.utf8EncodeChar_ne_nil
  | cons b bs =>
      have hbytes : ∀ b ∈ bs, 128 ≤ b := by
        intro d hd
        rcases utf8EncodeChar_cases c with ⟨-, hone⟩ | hbytes
        · obtain ⟨-, rfl⟩ := List.cons.inj (he.symm.trans hone)
          contradiction
        · exact hbytes d (by simp [he, hd])
      rw [he, List.length_cons] at hsize
      rw [List.cons_append, segmentEnd, segmentEnd_append hbytes, Option.map_map]
      congr 1
      funext e
      simp only [Function.comp_apply, ← hsize]
      congr 1
      omega

/-- **A literal part ends at the same place when it is read byte by byte.** -/
theorem segmentEnd_utf8 (t : Text) :
    segmentEnd (utf8 t) = (readSegment t).map fun s => (Text.byteSize s.raw, s.delimiter) := by
  fun_induction readSegment t with
  | case1 => rfl
  | case2 => rfl
  | case3 c t ih =>
      refine (segmentEnd_pair c t).trans ?_
      rw [ih, Option.map_map, Option.map_map]
      congr 1
      funext s
      have hslash : Char.utf8Size '\\' = 1 := rfl
      simp only [Function.comp_apply, Segment.cons, Text.byteSize_append, Text.byteSize_cons,
        Text.byteSize_nil, hslash]
      congr 1
      omega
  | case4 t => rfl
  | case5 t => rfl
  | case6 c t hend hpair hq hh ih =>
      rw [utf8_cons, segmentEnd_char (ne_backslash hend hpair) hq (head?_ne_brace hh), ih,
        Option.map_map, Option.map_map]
      congr 1
      funext s
      simp [Segment.cons, Nat.add_comm]

/-- **A text is raw just if, with a backtick behind it, no byte in front of that ends it.** -/
theorem isRaw_iff_segmentEnd :
    IsRaw t ↔ segmentEnd (utf8 (t ++ ['\x60'])) = some (Text.byteSize t, .backtick) := by
  rw [IsRaw, segmentEnd_utf8]
  constructor
  · intro h
    rw [h]
    rfl
  · intro h
    obtain ⟨⟨raw, delimiter, rest⟩, hs, he⟩ := Option.map_eq_some_iff.1 h
    have hsize : Text.byteSize raw = Text.byteSize t := congrArg Prod.fst he
    obtain rfl : delimiter = .backtick := congrArg Prod.snd he
    have happend := eq_append_of_readSegment hs
    have hraw : raw = t := by
      rw [← Text.takeBytes_append t ['\x60'], happend, ← hsize, List.append_assoc,
        Text.takeBytes_append]
    subst hraw
    have hrest : rest = [] := by simpa [Delimiter.text] using happend
    rw [hs, hrest]

/-! ### Escaping as a closure -/

/-- **Escaping is a closure onto raw text**: what it gives is raw, it changes a text just if the text
is not raw, and so it changes nothing when it is done again. It keeps every character of the text, in
order, and all that it puts in are backslashes. A text is raw just if the backtick behind it is the
first delimiter that is met when it is read byte by byte. -/
theorem escape_closure (t : Text) :
    IsRaw (escape t) ∧ (escape t = t ↔ IsRaw t) ∧ escape (escape t) = escape t ∧
      t.Sublist (escape t) ∧ (escape t).filter (· ≠ '\\') = t.filter (· ≠ '\\') ∧
      (IsRaw t ↔ segmentEnd (utf8 (t ++ ['\x60'])) = some (Text.byteSize t, .backtick)) :=
  ⟨isRaw_escape t, isRaw_iff_escape_eq_self.symm, isRaw_iff_escape_eq_self.1 (isRaw_escape t),
    sublist_escape t, filter_escape t, isRaw_iff_segmentEnd⟩

/-- Backslashes in front of a backtick, a run of dollar signs in front of a brace, and a backslash at
the end. -/
example : escape "\\\\`$$\x7b\\".toList = "\\\\\\`$\\$\x7b\\\\".toList := rfl

/-! ### Encoded text -/

/-- What encoding puts in front of a text is no brace. -/
theorem head?_encode_ne_brace (h : t.head? ≠ some '{') : (encode t).head? ≠ some '{' := by
  fun_cases encode t <;> simp_all

/-- **Encoded text is raw.** -/
theorem isRaw_encode (t : Text) : IsRaw (encode t) := by
  fun_induction encode t with
  | case1 => rfl
  | case2 t ih => exact isRaw_pair.2 ih
  | case3 t ih => exact isRaw_pair.2 ih
  | case4 t ih => exact isRaw_pair.2 ((isRaw_cons (by decide) (by decide) (by simp)).2 ih)
  | case5 c t hb hq hh ih =>
      refine (isRaw_cons hb hq fun hc => ?_).2 ih
      exact head?_encode_ne_brace (head?_ne_brace hh hc)

/-- A character that begins no escape pair stands for itself. -/
theorem decode_cons (hb : c ≠ '\\') (t : Text) : decode (c :: t) = c :: decode t := by
  rw [decode]
  exact fun _ _ h _ => hb h

/-- **Decoding encoded text gives the text back.** -/
theorem decode_encode (t : Text) : decode (encode t) = t := by
  fun_induction encode t with
  | case1 => rfl
  | case2 t ih => rw [decode, ih]
  | case3 t ih => rw [decode, ih]
  | case4 t ih =>
      -- The pair stands for the dollar sign alone; the brace behind it stands for itself.
      rw [decode, decode_cons (by decide), ih]
  | case5 c t hb _ _ ih => rw [decode_cons hb, ih]

/-- **Encoding is lossless and safe**: whatever follows the backtick behind encoded text, the text is
read as one literal part that this backtick ends, by characters and byte by byte; escaping leaves it as
it is; and each escape pair in it stands for one character of the text that was encoded. -/
theorem encode_spec (t : Text) :
    (∀ u, readSegment (encode t ++ '\x60' :: u) = some ⟨encode t, .backtick, u⟩) ∧
      (∀ u, segmentEnd (utf8 (encode t ++ '\x60' :: u)) =
        some (Text.byteSize (encode t), .backtick)) ∧
      escape (encode t) = encode t ∧ decode (encode t) = t := by
  have hread (u : Text) : readSegment (encode t ++ '\x60' :: u) = some ⟨encode t, .backtick, u⟩ :=
    readSegment_append (isRaw_encode t) .backtick u
  refine ⟨hread, fun u => ?_, isRaw_iff_escape_eq_self.1 (isRaw_encode t), decode_encode t⟩
  rw [segmentEnd_utf8, hread, Option.map_some]

/-- A backslash in front of a backtick, and a run of dollar signs in front of a brace. -/
example : encode "\\`$$\x7b".toList = "\\\\\\`$\\$\x7b".toList := rfl

end

end StyleBlocks.Template.RawText
