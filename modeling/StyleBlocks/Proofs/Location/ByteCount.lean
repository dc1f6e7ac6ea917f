import StyleBlocks.Proofs.Checked.Access
import StyleBlocks.Proofs.Location.Agreement

/-!
# Positions by counting bytes

The position of an offset can be told without a line map: its line is the number of line feeds
among the bytes in front of it, its column the number of bytes since the last of them, each
counted from one. This holds between the bytes of a character too. So later offsets have later
positions, and a position tells its offset.

## Main results

* `LineMap.position_eq_behind`: a line map finds the position that counting gives.
* `Position.behind_lt_append`: more bytes lead to a later position.
* `LineMap.position_of_offset?`: the offset of a position has this position, if it lies on the line.
* `LineMap.position_inverse`: offsets and positions are found from each other.
-/

namespace StyleBlocks

open Template.RawText (utf8)

/-- The position **behind** some bytes: one line for each line feed among them and one more, one
column for each byte behind the last line feed and one more. -/
def Position.behind (bytes : List UInt8) : Position where
  line := 1 + bytes.count 0x0a
  column := 1 + (bytes.reverse.takeWhile (· ≠ 0x0a)).length

/-- An offset **lies on** a line if the line starts there or before, and the next one, if there is
one, starts behind. -/
structure LineMap.LiesOn (m : LineMap) (line o : Nat) : Prop where
  start : ∃ s, m.lineStart? line = some s ∧ s ≤ o
  next : ∀ s, m.lineStart? (line + 1) = some s → o < s

/-! ### Bytes -/

namespace Position

variable {bs ds : List UInt8}

/-- Bytes without a line feed move the column. -/
theorem behind_append_of_notMem (h : 0x0a ∉ ds) :
    behind (bs ++ ds) = ⟨(behind bs).line, (behind bs).column + ds.length⟩ := by
  have hall : ∀ d ∈ ds.reverse, decide (d ≠ 0x0a) = true := by
    intro d hd
    rw [decide_eq_true_eq]
    rintro rfl
    exact h (List.mem_reverse.1 hd)
  simp only [behind, List.count_append, List.count_eq_zero.2 h, List.reverse_append,
    List.takeWhile_append_of_pos hall, List.length_append, List.length_reverse, mk.injEq]
  omega

/-- A line feed leads to the start of the next line. -/
theorem behind_newline (bs : List UInt8) : behind (bs ++ [0x0a]) = ⟨(behind bs).line + 1, 1⟩ := by
  simp [behind, Nat.add_assoc]

/-- **More bytes lead to a later position.** -/
theorem behind_lt_append (h : ds ≠ []) : behind bs < behind (bs ++ ds) := by
  by_cases hd : 0x0a ∈ ds
  · refine Or.inl ?_
    have := List.count_pos_iff.2 hd
    simp only [behind, List.count_append]
    omega
  · have := List.length_pos_iff.2 h
    rw [behind_append_of_notMem hd]
    exact Or.inr ⟨rfl, by dsimp only; omega⟩

end Position

/-- No byte of a character is a line feed, but for the line feed itself. -/
theorem notMem_utf8EncodeChar {c : Char} (h : c ≠ '\n') : 0x0a ∉ String.utf8EncodeChar c := by
  intro hmem
  rcases Template.RawText.utf8EncodeChar_cases c with ⟨hc, hone⟩ | hbytes
  · rw [hone, List.mem_singleton] at hmem
    exact h (Template.RawText.eq_of_ofNat_toNat (d := '\n') hc (by decide) hmem.symm)
  · exact absurd (hbytes _ hmem) (by decide)

/-- The bytes of two texts are those of the one and those of the other. -/
theorem utf8_append (s t : Text) : utf8 (s ++ t) = utf8 s ++ utf8 t := by
  simp [utf8]

/-- The bytes of a text are as many as its size. -/
theorem length_utf8 (t : Text) : (utf8 t).length = Text.byteSize t := by
  induction t with
  | nil => rfl
  | cons c t ih =>
      rw [Template.RawText.utf8_cons, List.length_append, String.length_utf8EncodeChar, ih,
        Text.byteSize_cons]

/-- Walking over the characters of a text is counting its bytes. -/
theorem Position.behind_utf8 (p : Text) : behind (utf8 p) = Position.advance {} p := by
  induction p using List.reverseRecOn with
  | nil => rfl
  | append_singleton p c ih =>
      have hbytes : utf8 (p ++ [c]) = utf8 p ++ String.utf8EncodeChar c := by simp [utf8]
      rw [hbytes, advance_append, ← ih, advance_cons, advance_nil]
      by_cases h : c = '\n'
      · subst h
        exact behind_newline _
      · rw [behind_append_of_notMem (notMem_utf8EncodeChar h), next, if_neg h,
          String.length_utf8EncodeChar]

/-! ### Offsets -/

/-- An offset of a text is a cut, or lies within the character behind one. -/
theorem Text.exists_cut {t : Text} {o : Nat} (h : o ≤ byteSize t) :
    ∃ p s d, t = p ++ s ∧ o = byteSize p + d ∧ (d = 0 ∨ ∃ c s', s = c :: s' ∧ d < c.utf8Size) := by
  induction t generalizing o with
  | nil => exact ⟨[], [], 0, rfl, Nat.le_zero.1 h, Or.inl rfl⟩
  | cons c t ih =>
      rcases Nat.lt_or_ge o c.utf8Size with hlt | hge
      · exact ⟨[], c :: t, o, rfl, (Nat.zero_add o).symm, Or.inr ⟨c, t, rfl, hlt⟩⟩
      · rw [byteSize_cons] at h
        obtain ⟨p, s, d, rfl, ho, hd⟩ := ih (o := o - c.utf8Size) (by omega)
        refine ⟨c :: p, s, d, rfl, ?_, hd⟩
        rw [byteSize_cons, Nat.add_assoc, ← ho, Nat.add_sub_cancel' hge]

/-- The bytes in front of an offset are those of the characters in front of it, and some of the
one that it lies within. -/
theorem behind_take {p s : Text} {d : Nat}
    (hd : d = 0 ∨ ∃ c s', s = c :: s' ∧ d < c.utf8Size) :
    Position.behind ((utf8 (p ++ s)).take (Text.byteSize p + d)) =
      ⟨(Position.advance {} p).line, (Position.advance {} p).column + d⟩ := by
  rw [utf8_append, ← length_utf8, List.take_length_add_append, ← Position.behind_utf8]
  rcases hd with rfl | ⟨c, s', rfl, hd⟩
  · rw [List.take_zero, List.append_nil]
    rfl
  · have htake : (utf8 (c :: s')).take d = (String.utf8EncodeChar c).take d := by
      rw [Template.RawText.utf8_cons, List.take_append_of_le_length]
      rw [String.length_utf8EncodeChar]
      exact Nat.le_of_lt hd
    have hnot : 0x0a ∉ (String.utf8EncodeChar c).take d := by
      by_cases hc : c = '\n'
      · subst hc
        obtain rfl : d = 0 := Nat.lt_one_iff.1 hd
        exact List.not_mem_nil
      · exact fun hmem => notMem_utf8EncodeChar hc (List.mem_of_mem_take hmem)
    rw [htake, Position.behind_append_of_notMem hnot, List.length_take,
      String.length_utf8EncodeChar, Nat.min_eq_left (Nat.le_of_lt hd)]

namespace LineMap

/-- **A line map finds the position that counting bytes gives.** -/
theorem position_eq_behind {t : Text} {o : Nat} (h : o ≤ Text.byteSize t) :
    (ofText t).position o = Position.behind ((utf8 t).take o) := by
  obtain ⟨p, s, d, rfl, rfl, hd⟩ := Text.exists_cut h
  rw [behind_take hd, position_add_of_eq rfl hd]

/-- Later offsets have later positions. -/
theorem position_lt_position {t : Text} {o o' : Nat} (hlt : o < o') (h : o' ≤ Text.byteSize t) :
    (ofText t).position o < (ofText t).position o' := by
  have hsplit : (utf8 t).take o' = (utf8 t).take o ++ ((utf8 t).drop o).take (o' - o) := by
    rw [← List.take_add, Nat.add_sub_cancel' (Nat.le_of_lt hlt)]
  rw [position_eq_behind (Nat.le_trans (Nat.le_of_lt hlt) h), position_eq_behind h, hsplit]
  refine Position.behind_lt_append (List.ne_nil_of_length_pos ?_)
  rw [List.length_take, List.length_drop, length_utf8]
  omega

/-- The position of an offset leads back to it, also between the bytes of a character. -/
theorem offset?_position_of_le {t : Text} {o : Nat} (h : o ≤ Text.byteSize t) :
    (ofText t).offset? ((ofText t).position o) = some o := by
  obtain ⟨p, s, d, rfl, rfl, hd⟩ := Text.exists_cut h
  rw [position_add_of_eq rfl hd]
  rw [Text.byteSize_append] at h
  exact offset?_append p (Nat.le_of_add_le_add_left h)

/-- In an ascending list, the numbers up to one are those up to the last that is not above it. -/
theorem takeWhile_eq_take {ns : List Nat} (h : ns.Pairwise (· < ·)) {i s o : Nat}
    (hs : ns[i]? = some s) (hle : s ≤ o) (hnext : ∀ s', ns[i + 1]? = some s' → o < s') :
    ns.takeWhile (· ≤ o) = ns.take (i + 1) := by
  induction ns generalizing i with
  | nil => contradiction
  | cons n ns ih =>
      obtain ⟨hn, h⟩ := List.pairwise_cons.1 h
      cases i with
      | zero =>
          obtain rfl : n = s := Option.some.inj hs
          rw [List.takeWhile_cons_of_pos (by simpa using hle)]
          cases ns with
          | nil => rfl
          | cons m ns =>
              have hm := hnext m rfl
              rw [List.takeWhile_cons_of_neg (by simpa using hm)]
              rfl
      | succ i =>
          have hlt : n < s := hn s (List.mem_of_getElem? hs)
          rw [List.takeWhile_cons_of_pos (by simpa using Nat.le_trans (Nat.le_of_lt hlt) hle),
            ih h hs hnext, List.take_succ_cons]

/-- **The offset of a position has this position**, if it lies on the line that the position
names. -/
theorem position_of_offset? {t : Text} {p : Position} {o : Nat} (h : (ofText t).offset? p = some o)
    (hline : (ofText t).LiesOn p.line o) : (ofText t).position o = p := by
  obtain ⟨⟨s, hs, hso⟩, hnext⟩ := hline
  obtain ⟨line, column⟩ := p
  -- The column is counted from the start of the line, for what runs past the last word is in
  -- front of it.
  obtain ⟨hcolumn, ho, hsize⟩ : column ≠ 0 ∧ o = s + (column - 1) ∧ o ≤ (ofText t).size := by
    rw [offset?, hs] at h
    simp only [Option.bind_eq_bind, Option.bind_some] at h
    split at h
    · contradiction
    split at h
    · obtain rfl := Option.some.inj h
      exact ⟨by assumption, rfl, by assumption⟩
    split at h
    · next hword =>
        obtain rfl := Option.some.inj h
        exact absurd hword.2 (Nat.not_lt.2 hso)
    · contradiction
  obtain ⟨i, rfl⟩ : ∃ i, line = i + 1 := by
    rcases Nat.eq_zero_or_pos line with rfl | hpos
    · simp [lineStart?] at hs
    · exact ⟨line - 1, (Nat.sub_add_cancel hpos).symm⟩
  have hstart : (ofText t).starts[i]? = some s := by simpa [lineStart?] using hs
  have hlines := takeWhile_eq_take (Checked.isAscending_ofText t).pairwise hstart hso
    fun s' hs' => hnext s' (by simpa [lineStart?] using hs')
  have hlast : ((ofText t).starts.take (i + 1)).getLastD 0 = s := by
    rw [List.take_add_one, hstart, Option.toList_some, List.getLastD_concat]
  have hlength : ((ofText t).starts.take (i + 1)).length = i + 1 := by
    have := (List.getElem?_eq_some_iff.1 hstart).1
    rw [List.length_take]
    omega
  rw [position, Nat.min_eq_left hsize]
  simp only [hlines, hlast, hlength, Position.mk.injEq, true_and]
  omega

/-- **Offsets and positions are found from each other.** The position of an offset is told by the
bytes in front of it, whether it is found by counting the lines or by a search for its line; it
grows with the offset and leads back to it. A position that leads to an offset on its own line is
the position of that offset. -/
theorem position_inverse (t : Text) :
    (∀ o ≤ Text.byteSize t,
      (ofText t).position o = Position.behind ((utf8 t).take o) ∧
        Checked.position (ofText t) o = some ((ofText t).position o) ∧
        (ofText t).offset? ((ofText t).position o) = some o) ∧
      (∀ o o', o < o' → o' ≤ Text.byteSize t →
        (ofText t).position o < (ofText t).position o') ∧
      ∀ p o, (ofText t).offset? p = some o → (ofText t).LiesOn p.line o →
        (ofText t).position o = p := by
  refine ⟨fun o ho => ⟨position_eq_behind ho, ?_, offset?_position_of_le ho⟩,
    fun o o' hlt ho' => position_lt_position hlt ho',
    fun p o h hline => position_of_offset? h hline⟩
  exact Checked.position_eq (Checked.isAscending_ofText t) o

/-- Offsets within a character, on an empty line, on a line feed and at the end behind a last line
feed. -/
theorem position_inverse_withinCharacter :
    let t : Text := "é\n\nb\n".toList
    (1 ≤ Text.byteSize t ∧ (ofText t).position 1 = Position.behind [0xc3] ∧
        (ofText t).offset? ⟨1, 2⟩ = some 1) ∧
      (3 < 6 ∧ 6 ≤ Text.byteSize t ∧ (ofText t).position 3 < (ofText t).position 6) ∧
      ((ofText t).offset? ⟨3, 2⟩ = some 5 ∧ (ofText t).LiesOn 3 5 ∧
        (ofText t).position 5 = ⟨3, 2⟩) := by
  intro t
  obtain ⟨hoffsets, hmono, hpositions⟩ := position_inverse t
  obtain ⟨hone, -, hback⟩ := hoffsets 1 (by decide)
  have hline : (ofText t).LiesOn 3 5 := ⟨⟨4, by decide, by decide⟩, fun s hs => by
    obtain rfl : 6 = s := Option.some.inj hs
    decide⟩
  have hfive : (ofText t).offset? ⟨3, 2⟩ = some 5 := by decide
  exact ⟨⟨by decide, hone, hback⟩, ⟨by decide, by decide, hmono 3 6 (by decide) (by decide)⟩,
    hfive, hline, hpositions ⟨3, 2⟩ 5 hfive hline⟩

end LineMap

end StyleBlocks
