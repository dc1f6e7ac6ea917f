import StyleBlocks.Proofs.Template.RawText
import StyleBlocks.Proofs.Text.Indent

/-!
# Cuts of raw text

Raw text can be cut between its escape pairs or within one. A text **dangles** if it ends within a
pair, with a backslash that has nothing behind it. Cut in front of a pair or behind one, raw text
falls into two raw texts. Cut within a pair, it does not: what is in front of the cut dangles, and
escaping adds a backslash to it.

## Main results

* `IsRaw.of_append`: raw text that is cut between pairs falls into raw texts.
* `escape_of_isRaw_append`: what escaping makes of a text that raw text starts with.
* `dangles_indentFrom`: indenting does not touch escape pairs.
-/

namespace StyleBlocks.Template.RawText

/-- Whether a text **dangles**: the last of its escape pairs lacks its second character. -/
def dangles : Text → Bool
  | [] => false
  | ['\\'] => true
  | '\\' :: _ :: t => dangles t
  | _ :: t => dangles t

section

variable {c : Char} {s t : Text}

@[simp] theorem dangles_nil : dangles [] = false := rfl

/-- An escape pair does not matter for what is behind it. -/
@[simp] theorem dangles_pair (c : Char) (t : Text) : dangles ('\\' :: c :: t) = dangles t := by
  rw [dangles]

/-- A character that begins no escape pair does not matter for what is behind it. -/
theorem dangles_cons (hc : c ≠ '\\') (t : Text) : dangles (c :: t) = dangles t := by
  rw [dangles]
  · exact fun h _ => hc h
  · exact fun _ _ h _ => hc h

/-- Behind whole pairs, pairs are told as if nothing were in front. -/
theorem dangles_append (hs : dangles s = false) (t : Text) : dangles (s ++ t) = dangles t := by
  fun_induction dangles s with
  | case1 => rfl
  | case2 => contradiction
  | case3 c s ih => simpa using ih hs
  | case4 c s hend hpair ih => rw [List.cons_append, dangles_cons (ne_backslash hend hpair), ih hs]

/-- A text that dangles ends in a backslash with whole pairs in front of it. -/
theorem exists_of_dangles (h : dangles t = true) : ∃ s, t = s ++ ['\\'] ∧ dangles s = false := by
  fun_induction dangles t with
  | case1 => contradiction
  | case2 => exact ⟨[], rfl, rfl⟩
  | case3 c t ih =>
      obtain ⟨s, rfl, hs⟩ := ih h
      exact ⟨'\\' :: c :: s, rfl, by simpa using hs⟩
  | case4 c t hend hpair ih =>
      obtain ⟨s, rfl, hs⟩ := ih h
      exact ⟨c :: s, rfl, by rwa [dangles_cons (ne_backslash hend hpair)]⟩

/-- A text that dangles ends with a backslash. -/
theorem getLast?_of_dangles (h : dangles t = true) : t.getLast? = some '\\' := by
  obtain ⟨s, rfl, -⟩ := exists_of_dangles h
  exact List.getLast?_concat

/-- A text without backslashes does not dangle. -/
theorem dangles_of_notMem (h : '\\' ∉ t) : dangles t = false := by
  by_contra hd
  exact h (List.mem_of_getLast? (getLast?_of_dangles (by simpa using hd)))

/-- Behind a character that is no backslash, pairs are told as if nothing were in front: it can only
be the second of a pair. -/
theorem dangles_append_cons (hc : c ≠ '\\') (s t : Text) : dangles (s ++ c :: t) = dangles t := by
  cases hs : dangles s with
  | false => rw [dangles_append hs, dangles_cons hc]
  | true =>
      obtain ⟨x, rfl, hx⟩ := exists_of_dangles hs
      rw [List.append_assoc, dangles_append hx]
      exact dangles_pair c t

/-- A text that ends in anything else than a backslash does not dangle. -/
theorem dangles_concat (hc : c ≠ '\\') (s : Text) : dangles (s ++ [c]) = false :=
  dangles_append_cons hc s []

/-- Behind whole pairs, or behind half a pair of which a line feed is the other half, pairs are told as
if nothing were in front. -/
theorem dangles_append_of_head? (h : dangles s = true → t.head? = some '\n') :
    dangles (s ++ t) = dangles t := by
  cases hs : dangles s with
  | false => exact dangles_append hs t
  | true =>
      obtain ⟨t, rfl⟩ := List.head?_eq_some_iff.1 (h hs)
      rw [dangles_append_cons (by decide), dangles_cons (by decide)]

/-- **Indenting does not touch escape pairs**, whatever goes in front of lines, as long as that has
no backslashes. -/
theorem dangles_indentFrom {front : Nat → Text} (hfront : ∀ n, '\\' ∉ front n) (line : Nat)
    (t : Text) : dangles (Text.indentFrom front line t) = dangles t := by
  have hline : ∀ n u, dangles (front n ++ u) = dangles u := fun n =>
    dangles_append (dangles_of_notMem (hfront n))
  fun_induction dangles t generalizing line with
  | case1 => rfl
  | case2 => rfl
  | case3 c t ih =>
      rw [Text.indentFrom_cons_of_ne (by decide)]
      by_cases hc : c = '\n'
      · rw [hc, Text.indentFrom_cons_newline, dangles_pair, hline, ih]
      · rw [Text.indentFrom_cons_of_ne hc, dangles_pair, ih]
  | case4 c t hend hpair ih =>
      by_cases hc : c = '\n'
      · rw [hc, Text.indentFrom_cons_newline, dangles_cons (by decide), hline, ih]
      · rw [Text.indentFrom_cons_of_ne hc, dangles_cons (ne_backslash hend hpair), ih]

/-! ### Raw text in pieces -/

/-- What may stand in front of raw text. -/
theorem isRaw_cons_iff (hb : c ≠ '\\') :
    IsRaw (c :: t) ↔ c ≠ '\x60' ∧ (c = '$' → t.head? ≠ some '{') ∧ IsRaw t := by
  constructor
  · intro h
    have hq : c ≠ '\x60' := by
      rintro rfl
      simp [IsRaw, readSegment] at h
    have hh : c = '$' → t.head? ≠ some '{' := by
      rintro rfl hhead
      obtain ⟨u, rfl⟩ := List.head?_eq_some_iff.1 hhead
      simp [IsRaw, readSegment] at h
    exact ⟨hq, hh, (isRaw_cons hb hq hh).1 h⟩
  · rintro ⟨hq, hh, ht⟩
    exact (isRaw_cons hb hq hh).2 ht

/-- Raw text does not dangle. -/
theorem IsRaw.dangles_eq_false (h : IsRaw t) : dangles t = false := by
  fun_induction dangles t with
  | case1 => rfl
  | case2 => exact absurd h (by decide)
  | case3 c t ih => exact ih (isRaw_pair.1 h)
  | case4 c t hend hpair ih => exact ih ((isRaw_cons_iff (ne_backslash hend hpair)).1 h).2.2

/-- **Raw text that is cut between pairs** falls into raw texts. -/
theorem IsRaw.of_append (h : IsRaw (s ++ t)) (hs : dangles s = false) : IsRaw s ∧ IsRaw t := by
  fun_induction dangles s with
  | case1 => exact ⟨rfl, h⟩
  | case2 => contradiction
  | case3 c s ih =>
      obtain ⟨hraw, ht⟩ := ih (isRaw_pair.1 h) hs
      exact ⟨isRaw_pair.2 hraw, ht⟩
  | case4 c s hend hpair ih =>
      obtain ⟨hq, hh, h⟩ := (isRaw_cons_iff (ne_backslash hend hpair)).1 h
      obtain ⟨hraw, ht⟩ := ih h hs
      refine ⟨(isRaw_cons_iff (ne_backslash hend hpair)).2 ⟨hq, fun hc => ?_, hraw⟩, ht⟩
      cases s with
      | nil => simp
      | cons d s => exact hh hc

/-- Raw texts one behind the other are raw text, unless they make up the opening of a hole. -/
theorem IsRaw.append (hs : IsRaw s) (ht : IsRaw t) (hbrace : t.head? ≠ some '{') :
    IsRaw (s ++ t) := by
  fun_induction dangles s with
  | case1 => exact ht
  | case2 => exact absurd hs (by decide)
  | case3 c s ih => exact isRaw_pair.2 (ih (isRaw_pair.1 hs))
  | case4 c s hend hpair ih =>
      obtain ⟨hq, hh, hs⟩ := (isRaw_cons_iff (ne_backslash hend hpair)).1 hs
      refine (isRaw_cons_iff (ne_backslash hend hpair)).2 ⟨hq, fun hc => ?_, ih hs⟩
      cases s with
      | nil => exact hbrace
      | cons d s => exact hh hc

/-- Raw text with text in front that has no backslashes, backticks and dollar signs is raw. -/
theorem IsRaw.plain_append (ht : IsRaw t) (hs : ∀ c ∈ s, c ≠ '\\' ∧ c ≠ '\x60' ∧ c ≠ '$') :
    IsRaw (s ++ t) := by
  induction s with
  | nil => exact ht
  | cons c s ih =>
      obtain ⟨⟨hb, hq, hd⟩, hs⟩ := List.forall_mem_cons.1 hs
      exact (isRaw_cons_iff hb).2 ⟨hq, fun hc => absurd hc hd, ih hs⟩

/-! ### Escaping pieces -/

/-- A backslash at the end of raw text becomes a pair. -/
theorem escape_concat_backslash (h : IsRaw t) : escape (t ++ ['\\']) = t ++ ['\\', '\\'] := by
  fun_induction dangles t with
  | case1 => rfl
  | case2 => exact absurd h (by decide)
  | case3 c t ih => simpa [escape] using ih (isRaw_pair.1 h)
  | case4 c t hend hpair ih =>
      have hb := ne_backslash hend hpair
      obtain ⟨hq, hh, h⟩ := (isRaw_cons_iff hb).1 h
      rw [List.cons_append, escape_cons hb hq, ih h]
      · rfl
      · intro hc
        cases t with
        | nil => simp
        | cons d t => exact hh hc

/-- **What escaping makes of a text that raw text starts with**: it stays as it is, unless the cut
behind it is within a pair. -/
theorem escape_of_isRaw_append (h : IsRaw (s ++ t)) :
    escape s = if dangles s then s ++ ['\\'] else s := by
  cases hs : dangles s with
  | false => exact isRaw_iff_escape_eq_self.1 (h.of_append hs).1
  | true =>
      obtain ⟨x, rfl, hx⟩ := exists_of_dangles hs
      rw [List.append_assoc] at h
      simpa using escape_concat_backslash (h.of_append hx).1

/-- The front of a raw text is left alone by escaping just if it does not end within an escape
pair. -/
theorem escape_eq_self_iff (h : IsRaw (s ++ t)) : escape s = s ↔ dangles s = false := by
  rw [escape_of_isRaw_append h]
  cases dangles s <;> simp

end

end StyleBlocks.Template.RawText
