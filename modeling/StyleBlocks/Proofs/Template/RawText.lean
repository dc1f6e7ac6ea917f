import StyleBlocks.Template.RawText

/-!
# Raw text and escaping

Raw text is what `readSegment` reads: a literal part of a template is raw text, and raw text in front
of a delimiter is a literal part again. Escaping tells raw text apart as well, for it leaves raw text
alone and nothing else.

## Main results

* `isRaw_of_readSegment`: a literal part is raw text.
* `readSegment_append`: raw text in front of a delimiter is a literal part.
* `isRaw_iff_escape_eq_self`: raw text is text that needs no escaping.
-/

namespace StyleBlocks.Template.RawText

/-! ### Reading -/

/-- A backslash ends the text or starts an escape pair. -/
theorem ne_backslash {c : Char} {t : Text} (hend : c = '\\' → t = [] → False)
    (hpair : ∀ d u, c = '\\' → t = d :: u → False) : c ≠ '\\' := by
  rintro rfl
  cases t with
  | nil => exact hend rfl rfl
  | cons d u => exact hpair d u rfl rfl

/-- A dollar sign in front of a brace opens a hole. -/
theorem head?_ne_brace {c : Char} {t : Text} (h : ∀ u, c = '$' → t = '{' :: u → False) :
    c = '$' → t.head? ≠ some '{' := by
  rintro rfl hhead
  obtain ⟨u, rfl⟩ := List.head?_eq_some_iff.1 hhead
  exact h u rfl rfl

/-- A character that begins no escape pair and no delimiter is read by itself. -/
theorem readSegment_cons {c : Char} {t : Text} (hb : c ≠ '\\') (hq : c ≠ '\x60')
    (hh : c = '$' → t.head? ≠ some '{') :
    readSegment (c :: t) = (readSegment t).map (Segment.cons [c]) := by
  rw [readSegment]
  · exact fun h _ => hb h
  · exact fun _ _ h _ => hb h
  · exact hq
  · rintro u rfl rfl
    exact hh rfl rfl

/-- **A literal part of a template is raw text.** -/
theorem isRaw_of_readSegment {t : Text} {s : Segment} (h : readSegment t = some s) :
    IsRaw s.raw := by
  fun_induction readSegment t generalizing s with
  | case1 => simp at h
  | case2 => simp at h
  | case3 c t ih =>
      obtain ⟨u, hu, rfl⟩ := Option.map_eq_some_iff.1 h
      have := ih hu
      rw [IsRaw] at this ⊢
      simp [Segment.cons, readSegment, this]
  | case4 t =>
      cases h
      rfl
  | case5 t =>
      cases h
      rfl
  | case6 c t hb hp hq hh ih =>
      obtain ⟨u, hu, rfl⟩ := Option.map_eq_some_iff.1 h
      have hraw := ih hu
      have ht := eq_append_of_readSegment hu
      have hslash := ne_backslash hb hp
      have hhead : c = '$' → (u.raw ++ ['\x60']).head? ≠ some '{' := by
        rintro rfl hhead
        cases hr : u.raw with
        | nil => simp [hr] at hhead
        | cons d raw =>
            simp only [hr, List.cons_append, List.head?_cons, Option.some.injEq] at hhead
            exact hh (raw ++ u.delimiter.text ++ u.rest) rfl (by rw [ht, hr, hhead]; simp)
      rw [IsRaw] at hraw ⊢
      simp [Segment.cons, readSegment_cons hslash hq hhead, hraw]

/-! ### Escaping -/

/-- A character is left as it is unless it needs a backslash in front. -/
theorem escape_cons {c : Char} {t : Text} (hb : c ≠ '\\') (hq : c ≠ '\x60')
    (hh : c = '$' → t.head? ≠ some '{') : escape (c :: t) = c :: escape t := by
  rw [escape]
  · exact fun h _ => hb h
  · exact fun _ _ h _ => hb h
  · exact hq
  · rintro u rfl rfl
    exact hh rfl rfl

/-- What is put in front of a literal part does not matter for what ends it. -/
theorem map_cons_eq_iff {o : Option Segment} {front t : Text} :
    o.map (Segment.cons front) = some ⟨front ++ t, .backtick, []⟩ ↔
      o = some ⟨t, .backtick, []⟩ := by
  cases o with
  | none => simp
  | some s =>
      cases s
      simp [Segment.cons]

/-- An escape pair in front of raw text. -/
theorem isRaw_pair {c : Char} {t : Text} : IsRaw ('\\' :: c :: t) ↔ IsRaw t := by
  rw [IsRaw, List.cons_append, List.cons_append, readSegment]
  exact map_cons_eq_iff

/-- A character in front of raw text. -/
theorem isRaw_cons {c : Char} {t : Text} (hb : c ≠ '\\') (hq : c ≠ '\x60')
    (hh : c = '$' → t.head? ≠ some '{') : IsRaw (c :: t) ↔ IsRaw t := by
  have hhead : c = '$' → (t ++ ['\x60']).head? ≠ some '{' := by
    intro hc
    cases t with
    | nil => simp
    | cons d t => exact hh hc
  rw [IsRaw, List.cons_append, readSegment_cons hb hq hhead]
  exact map_cons_eq_iff

/-- **Raw text is text that needs no escaping.** -/
theorem isRaw_iff_escape_eq_self {t : Text} : IsRaw t ↔ escape t = t := by
  fun_induction escape t with
  | case1 => exact iff_of_true rfl rfl
  | case2 => decide
  | case3 c t ih => simp [isRaw_pair, ih]
  | case4 t => simp [IsRaw, readSegment]
  | case5 t => simp [IsRaw, readSegment]
  | case6 c t hend hpair hq hh ih =>
      simp [isRaw_cons (ne_backslash hend hpair) hq (head?_ne_brace hh), ih]

/-! ### Raw text in front of a delimiter -/

/-- **Raw text in front of a delimiter is a literal part.** -/
theorem readSegment_append {q : Text} (hq : IsRaw q) (d : Delimiter) (t : Text) :
    readSegment (q ++ (d.text ++ t)) = some ⟨q, d, t⟩ := by
  fun_induction escape q with
  | case1 => cases d <;> rfl
  | case2 => exact absurd hq (by decide)
  | case3 c q ih => simp [readSegment, ih (isRaw_pair.1 hq), Segment.cons]
  | case4 q => simp [IsRaw, readSegment] at hq
  | case5 q => simp [IsRaw, readSegment] at hq
  | case6 c q hend hpair htick hhole ih =>
      have hb := ne_backslash hend hpair
      have hhead := head?_ne_brace hhole
      have hnext : c = '$' → (q ++ (d.text ++ t)).head? ≠ some '{' := by
        intro hc
        cases q with
        | nil => cases d <;> simp [Delimiter.text]
        | cons e q => exact hhead hc
      rw [List.cons_append, readSegment_cons hb htick hnext, ih ((isRaw_cons hb htick hhead).1 hq)]
      rfl

end StyleBlocks.Template.RawText
