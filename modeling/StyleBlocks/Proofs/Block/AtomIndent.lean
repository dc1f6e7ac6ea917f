import StyleBlocks.Proofs.Block.Atom

/-!
# Indenting atoms

Indentation goes in front of lines, and lines start behind line feeds, which are atoms. So it can be
put into a list of atoms, and if the indented text is that of some atoms, then so is the text
without its indentation.

## Main results

* `texts_indent`: the text of indented atoms is the indented text.
* `exists_of_indentFrom`: indentation is taken from atoms without cutting any.
* `Unmarked.of_indent`: no placeholder comes about where indentation is taken away.
-/

namespace StyleBlocks.Placeholder

/-- Atoms with `front n` in front of each of their lines `n` but the first; the first has the number
`line`. -/
def indent (front : Nat → Text) (line : Nat) : List Piece → List Piece
  | [] => []
  | a :: m =>
    if a = .literal ['\n'] then a :: (chars (front (line + 1)) ++ indent front (line + 1) m)
    else a :: indent front line m

section

variable {front : Nat → Text} {line : Nat} {m M u v : List Piece} {a : Piece} {t : Text}

/-- An atom is a line feed, or stands on one line. -/
theorem IsAtom.newline_or (h : IsAtom a) :
    a = .literal ['\n'] ∨ a ≠ .literal ['\n'] ∧ '\n' ∉ a.text := by
  cases h with
  | char c =>
      by_cases hc : c = '\n'
      · exact Or.inl (by rw [hc])
      · exact Or.inr ⟨by simpa using hc, by simpa using Ne.symm hc⟩
  | pair c hc => exact Or.inr ⟨by simp, by simpa using Ne.symm hc⟩
  | hole i hi => exact Or.inr ⟨by simp, notMem_create rfl (by decide) i⟩

/-- The text of indented atoms is the indented text. -/
theorem texts_indent (hm : ∀ a ∈ m, IsAtom a) :
    texts (indent front line m) = Text.indentFrom front line (texts m) := by
  induction m generalizing line with
  | nil => rfl
  | cons a m ih =>
      have ih : ∀ line, texts (indent front line m) = Text.indentFrom front line (texts m) :=
        fun _ => ih fun b hb => hm b (List.mem_cons_of_mem _ hb)
      rcases (hm a List.mem_cons_self).newline_or with rfl | ⟨hne, hn⟩
      · simp [indent, ih]
      · rw [indent, if_neg hne, texts_cons, texts_cons, Text.indentFrom_append,
          Text.indentFrom_of_notMem hn, Text.breaks_eq_zero hn, ih, Nat.add_zero]

/-- Indenting goes through a cut between atoms. -/
theorem indent_append (hu : ∀ a ∈ u, IsAtom a) :
    indent front line (u ++ v) =
      indent front line u ++ indent front (line + (texts u).breaks) v := by
  induction u generalizing line with
  | nil => rfl
  | cons a u ih =>
      have ih : ∀ line, indent front line (u ++ v) =
          indent front line u ++ indent front (line + (texts u).breaks) v :=
        fun _ => ih fun b hb => hu b (List.mem_cons_of_mem _ hb)
      rcases (hu a List.mem_cons_self).newline_or with rfl | ⟨hne, hn⟩
      · have hline : line + 1 + (texts u).breaks = line + ((texts u).breaks + 1) := by omega
        simp [indent, ih, hline]
      · simp [indent, hne, ih, Text.breaks_eq_zero hn]

/-! ### Taking indentation away -/

/-- Characters that are part of no other atom are atoms of their own. -/
theorem exists_of_append {b : Text} (hM : ∀ a ∈ M, IsAtom a) (hb : ∀ c ∈ b, c ≠ '\\' ∧ c ≠ '/')
    (h : texts M = b ++ t) : ∃ M', M = chars b ++ M' ∧ texts M' = t := by
  induction b generalizing M with
  | nil => exact ⟨M, rfl, h⟩
  | cons c b ih =>
      have hc := hb c List.mem_cons_self
      cases M with
      | nil => simp at h
      | cons a M =>
          cases hM a List.mem_cons_self with
          | char d =>
              obtain ⟨rfl, ht⟩ : d = c ∧ texts M = b ++ t := by simpa using h
              obtain ⟨M', rfl, hM'⟩ := ih (fun a ha => hM a (List.mem_cons_of_mem _ ha))
                (fun e he => hb e (List.mem_cons_of_mem _ he)) ht
              exact ⟨M', rfl, hM'⟩
          | pair d hd => exact absurd (List.cons.inj h).1.symm hc.1
          | hole i hi => exact absurd (List.cons.inj h).1.symm hc.2

/-- A line that an indented text starts with is one that the text starts with. -/
theorem exists_of_append_indentFrom {s r : Text} (hs : '\n' ∉ s)
    (h : s ++ r = Text.indentFrom front line t) :
    ∃ t', t = s ++ t' ∧ r = Text.indentFrom front line t' := by
  induction s generalizing t with
  | nil => exact ⟨t, rfl, h⟩
  | cons c s ih =>
      rw [List.mem_cons, not_or] at hs
      cases t with
      | nil => simp at h
      | cons d t =>
          by_cases hd : d = '\n'
          · rw [hd, Text.indentFrom_cons_newline] at h
            exact absurd (List.cons.inj h).1.symm hs.1
          · rw [Text.indentFrom_cons_of_ne hd] at h
            obtain ⟨rfl, hrest⟩ := List.cons.inj h
            obtain ⟨t', rfl, hr⟩ := ih hs.2 hrest
            exact ⟨t', rfl, hr⟩

/-- **Indentation is taken from atoms without cutting any**: if a text, indented with blanks, is the
text of atoms, then it is the text of atoms that give these when they are indented. -/
theorem exists_of_indentFrom {front : Nat → Text} {line : Nat} {M : List Piece} {t : Text}
    (hfront : ∀ n, ∀ c ∈ front n, c ≠ '\\' ∧ c ≠ '/')
    (hM : ∀ a ∈ M, IsAtom a) (h : texts M = Text.indentFrom front line t) :
    ∃ m, texts m = t ∧ indent front line m = M ∧ m.Sublist M := by
  match M with
  | [] =>
      cases t with
      | nil => exact ⟨[], rfl, rfl, List.Sublist.refl _⟩
      | cons c t => by_cases hc : c = '\n' <;> simp [Text.indentFrom, hc] at h
  | a :: M =>
      have hM' : ∀ b ∈ M, IsAtom b := fun b hb => hM b (List.mem_cons_of_mem _ hb)
      rcases (hM a List.mem_cons_self).newline_or with rfl | ⟨hne, hn⟩
      · cases t with
        | nil => simp at h
        | cons c t =>
            by_cases hc : c = '\n'
            · subst hc
              have hrest : texts M = front (line + 1) ++ Text.indentFrom front (line + 1) t := by
                simpa using h
              obtain ⟨N, rfl, hN⟩ := exists_of_append hM' (hfront _) hrest
              obtain ⟨m, rfl, rfl, hsub⟩ := exists_of_indentFrom hfront
                (fun b hb => hM' b (List.mem_append_right _ hb)) hN
              exact ⟨.literal ['\n'] :: m, rfl, by simp [indent],
                (hsub.trans (List.sublist_append_right _ _)).cons_cons _⟩
            · rw [Text.indentFrom_cons_of_ne hc] at h
              exact absurd (List.cons.inj h).1.symm hc
      · obtain ⟨t', rfl, ht'⟩ := exists_of_append_indentFrom hn h
        obtain ⟨m, rfl, hm, hsub⟩ := exists_of_indentFrom hfront hM' ht'
        exact ⟨a :: m, rfl, by rw [indent, if_neg hne, hm], hsub.cons_cons _⟩
termination_by M.length

/-- Text within a line stands in the indented text. -/
theorem infix_indentFrom {s : Text} (hs : '\n' ∉ s) (h : s <:+: t) :
    s <:+: Text.indentFrom front line t := by
  obtain ⟨p, q, rfl⟩ := h
  refine ⟨Text.indentFrom front line p, Text.indentFrom front (line + Text.breaks (p ++ s)) q, ?_⟩
  rw [Text.indentFrom_append, Text.indentFrom_append, Text.indentFrom_of_notMem hs]

/-- The characters of a text are no holes. -/
theorem isLiteral_of_mem_chars (ha : a ∈ chars t) : a.isLiteral = true := by
  obtain ⟨c, -, rfl⟩ := List.mem_map.1 ha
  rfl

/-- Indentation is no placeholder. -/
theorem isLiteral_of_mem_indent (hm : ∀ a ∈ m, a.isLiteral = true) :
    ∀ a ∈ indent front line m, a.isLiteral = true := by
  induction m generalizing line with
  | nil => simp [indent]
  | cons b m ih =>
      have hb := hm b List.mem_cons_self
      have ih : ∀ line, ∀ a ∈ indent front line m, a.isLiteral = true :=
        fun _ => ih fun a ha => hm a (List.mem_cons_of_mem _ ha)
      intro a ha
      simp only [indent] at ha
      split at ha
      · simp only [List.mem_cons, List.mem_append] at ha
        rcases ha with rfl | ha | ha
        · exact hb
        · exact isLiteral_of_mem_chars ha
        · exact ih _ a ha
      · rcases List.mem_cons.1 ha with rfl | ha
        · exact hb
        · exact ih _ a ha

/-- **No placeholder comes about where indentation is taken away.** -/
theorem Unmarked.of_indent (hm : ∀ a ∈ m, IsAtom a) (h : Unmarked (indent front line m)) :
    Unmarked m := by
  rintro lits ⟨u, v, rfl⟩ hall hmark
  have hu : ∀ a ∈ u, IsAtom a := fun a ha => hm a (by simp [ha])
  have hl : ∀ a ∈ lits, IsAtom a := fun a ha => hm a (by simp [ha])
  rw [List.append_assoc, indent_append hu, indent_append hl] at h
  refine h (indent front (line + (texts u).breaks) lits)
    ⟨indent front line u, indent front _ v, by rw [List.append_assoc]⟩ ?_ ?_
  · exact isLiteral_of_mem_indent hall
  · rw [texts_indent hl]
    exact infix_indentFrom (by decide) hmark

end

end StyleBlocks.Placeholder
