import StyleBlocks.Proofs.Location.Advance

/-!
# Indenting a text line by line

`Text.indentFrom front line t` puts the text `front n` in front of every line `n` of `t` but the
first, when the first line of `t` has the number `line`. It works character by character, so that
indenting two texts one after the other is indenting them together, wherever they were cut.

## Main results

* `Text.indentFrom_append`: indenting goes through a cut.
* `Text.joinLines_zipIdx_map`: putting something in front of each line of a text is indenting it.
* `Text.indentFrom_joinLines`: indenting the rests of lines with what was taken from them gives the
  lines.
* `Text.exists_of_append_cons_indentFrom`: a cut of an indented text at a character that is no
  indentation is a cut of the text.
-/

namespace StyleBlocks.Text

/-- A text with `front n` in front of each of its lines `n` but the first; the first has the number
`line`. -/
def indentFrom (front : Nat → Text) (line : Nat) : Text → Text
  | [] => []
  | c :: t =>
    if c = '\n' then '\n' :: (front (line + 1) ++ indentFrom front (line + 1) t)
    else c :: indentFrom front line t

section

variable {front : Nat → Text} {line : Nat}

@[simp] theorem indentFrom_nil : indentFrom front line [] = [] := rfl

/-- A line feed is followed by the front of the next line. -/
@[simp] theorem indentFrom_cons_newline (t : Text) :
    indentFrom front line ('\n' :: t) =
      '\n' :: (front (line + 1) ++ indentFrom front (line + 1) t) := by
  rw [indentFrom, if_pos rfl]

/-- A character that is no line feed stays as it is. -/
theorem indentFrom_cons_of_ne {c : Char} (h : c ≠ '\n') (t : Text) :
    indentFrom front line (c :: t) = c :: indentFrom front line t := by
  rw [indentFrom, if_neg h]

/-- **Indenting goes through a cut**: the second text goes on at the line on which the first ends.
-/
theorem indentFrom_append (s t : Text) :
    indentFrom front line (s ++ t) =
      indentFrom front line s ++ indentFrom front (line + s.breaks) t := by
  induction s generalizing line with
  | nil => rfl
  | cons c s ih =>
      by_cases h : c = '\n'
      · subst h
        have hline : line + 1 + breaks s = line + (breaks s + 1) := by omega
        simp [ih, hline]
      · simp [indentFrom_cons_of_ne h, breaks_cons_of_ne h, ih]

/-- Nothing is in an indented text but the text and what goes in front of its lines. -/
theorem mem_or_exists_of_mem_indentFrom {c : Char} {t : Text} (h : c ∈ indentFrom front line t) :
    c ∈ t ∨ ∃ n, c ∈ front n := by
  induction t generalizing line with
  | nil => contradiction
  | cons d t ih =>
      have hrest : ∀ {n}, c ∈ indentFrom front n t → c ∈ d :: t ∨ ∃ n, c ∈ front n := fun h =>
        (ih h).imp_left (List.mem_cons_of_mem d)
      by_cases hd : d = '\n'
      · rw [hd, indentFrom_cons_newline, List.mem_cons, List.mem_append] at h
        rcases h with rfl | h | h
        · exact Or.inl (hd ▸ List.mem_cons_self)
        · exact Or.inr ⟨_, h⟩
        · exact hrest h
      · rw [indentFrom_cons_of_ne hd, List.mem_cons] at h
        rcases h with rfl | h
        · exact Or.inl List.mem_cons_self
        · exact hrest h

/-- A text on one line is left as it is. -/
theorem indentFrom_of_notMem {t : Text} (h : '\n' ∉ t) : indentFrom front line t = t := by
  induction t with
  | nil => rfl
  | cons c t ih =>
      rw [List.mem_cons, not_or] at h
      rw [indentFrom_cons_of_ne (Ne.symm h.1), ih h.2]

/-- Nothing put in front leaves a text as it is. -/
@[simp] theorem indentFrom_empty (line : Nat) (t : Text) : indentFrom (fun _ => []) line t = t := by
  induction t generalizing line with
  | nil => rfl
  | cons c t ih =>
      by_cases h : c = '\n'
      · subst h
        simp [ih]
      · simp [indentFrom_cons_of_ne h, ih]

/-- Only what goes in front of the lines of the text matters. -/
theorem indentFrom_congr {front' : Nat → Text} {d : Nat} {t : Text}
    (h : ∀ n, line < n → n ≤ line + t.breaks → front n = front' (n + d)) :
    indentFrom front line t = indentFrom front' (line + d) t := by
  induction t generalizing line with
  | nil => rfl
  | cons c t ih =>
      by_cases hc : c = '\n'
      · subst hc
        rw [breaks_cons_newline] at h
        have hline : line + d + 1 = line + 1 + d := by omega
        rw [indentFrom_cons_newline, indentFrom_cons_newline, hline,
          h (line + 1) (by omega) (by omega),
          ih fun n hl hu => h n (by omega) (by omega)]
      · rw [breaks_cons_of_ne hc] at h
        rw [indentFrom_cons_of_ne hc, indentFrom_cons_of_ne hc, ih h]

end

/-! ### Lines -/

/-- There is one more line than there are line feeds. -/
theorem length_lines (t : Text) : (lines t).length = t.breaks + 1 := by
  induction t with
  | nil => rfl
  | cons c t ih =>
      obtain ⟨l, ls, h⟩ := List.exists_cons_of_ne_nil (lines_ne_nil t)
      by_cases hc : c = '\n'
      · subst hc
        simp [lines, ih]
      · rw [h] at ih
        simpa [lines, hc, h, breaks_cons_of_ne hc] using ih

/-- Lines have no line feeds in them. -/
theorem notMem_of_mem_lines {t l : Text} (hl : l ∈ lines t) : '\n' ∉ l := by
  induction t generalizing l with
  | nil => simp_all [lines]
  | cons c t ih =>
      obtain ⟨m, ms, h⟩ := List.exists_cons_of_ne_nil (lines_ne_nil t)
      rw [h] at ih
      by_cases hc : c = '\n'
      · subst hc
        simp only [lines, if_true, h, List.mem_cons] at hl
        rcases hl with rfl | hl
        · exact List.not_mem_nil
        · exact ih (List.mem_cons.2 hl)
      · simp only [lines, if_neg hc, h, List.mem_cons] at hl
        rcases hl with rfl | hl
        · rw [List.mem_cons, not_or]
          exact ⟨Ne.symm hc, ih List.mem_cons_self⟩
        · exact ih (List.mem_cons_of_mem _ hl)

/-- The lines of a text that a character begins. -/
theorem lines_cons_of_ne {c : Char} (hc : c ≠ '\n') {t l : Text} {ls : List Text}
    (h : lines t = l :: ls) : lines (c :: t) = (c :: l) :: ls := by
  simp [lines, hc, h]

/-- A character in front of the first line is one in front of all. -/
theorem joinLines_cons_append (c : Char) (l : Text) (ls : List Text) :
    joinLines ((c :: l) :: ls) = c :: joinLines (l :: ls) := by
  cases ls <;> rfl

/-- Joined lines, the first of them apart. -/
theorem joinLines_append_cons (s l : Text) (ls : List Text) :
    joinLines ((s ++ l) :: ls) = s ++ joinLines (l :: ls) := by
  cases ls <;> simp [joinLines]

/-- There is a line break between any two lines. -/
theorem breaks_joinLines {ls : List Text} (hne : ls ≠ []) (h : ∀ l ∈ ls, '\n' ∉ l) :
    breaks (joinLines ls) + 1 = ls.length := by
  induction ls with
  | nil => contradiction
  | cons l ls ih =>
      have hl := breaks_eq_zero (h l List.mem_cons_self)
      cases ls with
      | nil => simp [joinLines, hl]
      | cons m ls =>
          have := ih (by simp) fun l hl => h l (List.mem_cons_of_mem _ hl)
          rw [List.length_cons, ← this]
          simp [joinLines, hl]

/-- **Putting something in front of every line** of a text is indenting it, with what goes in front
of its first line in front of all. -/
theorem joinLines_zipIdx_map (front : Nat → Text) (line : Nat) (t : Text) :
    joinLines (((lines t).zipIdx line).map fun l => front l.2 ++ l.1) =
      front line ++ indentFrom front line t := by
  induction t generalizing line with
  | nil => simp [lines, joinLines]
  | cons c t ih =>
      obtain ⟨l, ls, h⟩ := List.exists_cons_of_ne_nil (lines_ne_nil t)
      by_cases hc : c = '\n'
      · subst hc
        have hcons : ((lines ('\n' :: t)).zipIdx line).map (fun l => front l.2 ++ l.1) =
            front line :: ((lines t).zipIdx (line + 1)).map fun l => front l.2 ++ l.1 := by
          simp [lines]
        rw [hcons, indentFrom_cons_newline, ← ih, h]
        simp [joinLines]
      · have ih := ih line
        rw [h, List.zipIdx_cons, List.map_cons, joinLines_append_cons] at ih
        rw [lines_cons_of_ne hc h, List.zipIdx_cons, List.map_cons, joinLines_append_cons,
          joinLines_cons_append, indentFrom_cons_of_ne hc, List.append_cancel_left ih]

/-- **Indenting the rests of lines** with what was taken from them gives the lines. -/
theorem indentFrom_joinLines {front : Nat → Text} {line : Nat} {p : Text × Text}
    {ps : List (Text × Text)} (hps : ∀ q ∈ p :: ps, '\n' ∉ q.2)
    (hfront : ∀ k q, (p :: ps)[k]? = some q → front (line + k) = q.1) :
    front line ++ indentFrom front line (joinLines ((p :: ps).map Prod.snd)) =
      joinLines ((p :: ps).map fun q => q.1 ++ q.2) := by
  have hfst : front line = p.1 := hfront 0 p rfl
  have hp : indentFrom front line p.2 = p.2 := indentFrom_of_notMem (hps p List.mem_cons_self)
  induction ps generalizing p line with
  | nil => simp [joinLines, hfst, hp]
  | cons q ps ih =>
      have hq := hps q (List.mem_cons_of_mem _ List.mem_cons_self)
      have hnext : ∀ k r, (q :: ps)[k]? = some r → front (line + 1 + k) = r.1 := by
        intro k r hk
        rw [← hfront (k + 1) r hk]
        congr 1
        omega
      have ih := ih (fun r hr => hps r (List.mem_cons_of_mem _ hr)) hnext
        (hfront 1 q rfl) (indentFrom_of_notMem hq)
      have hbreaks : breaks p.2 = 0 := breaks_eq_zero (hps p List.mem_cons_self)
      simp only [List.map_cons, joinLines, indentFrom_append, indentFrom_cons_newline, hp, hfst,
        hbreaks, Nat.add_zero, List.append_assoc]
      rw [List.map_cons, List.map_cons] at ih
      rw [ih]

/-! ### Taking indentation away -/

section

variable {front : Nat → Text} {line : Nat} {x : Char} {r s t : Text}

/-- Where a character stands first in a text is told by what stands in front. -/
theorem append_cons_inj {t' r' : Text} (ht : x ∉ t) (ht' : x ∉ t') :
    t ++ x :: r = t' ++ x :: r' ↔ t = t' ∧ r = r' := by
  refine ⟨fun h => ?_, fun ⟨h, h'⟩ => by rw [h, h']⟩
  rcases List.append_eq_append_iff.1 h with ⟨u, rfl, hu⟩ | ⟨u, rfl, hu⟩
  all_goals
    cases u with
    | nil => simpa [eq_comm] using hu
    | cons c u =>
        obtain ⟨rfl, -⟩ := List.cons.inj hu
        simp at ht ht'

/-- What is in a text is in the indented text. -/
theorem subset_indentFrom (t : Text) : t ⊆ indentFrom front line t := by
  induction t generalizing line with
  | nil => simp
  | cons c t ih =>
      by_cases hc : c = '\n'
      · subst hc
        rw [indentFrom_cons_newline]
        exact List.cons_subset_cons _ (List.subset_append_of_subset_right _ ih)
      · rw [indentFrom_cons_of_ne hc]
        exact List.cons_subset_cons _ ih

/-- A character that is no indentation comes first in the text where it does in the indented text. -/
theorem exists_of_append_cons_indentFrom (hx : x ≠ '\n') (hfront : ∀ n, x ∉ front n) {p : Text}
    (hp : x ∉ p) (hs : x ∉ s) (h : s ++ x :: r = p ++ indentFrom front line t) :
    ∃ u v, t = u ++ x :: v ∧ s = p ++ indentFrom front line u ∧
      r = indentFrom front (line + u.breaks) v := by
  have hmem : x ∈ t := by
    have hm : x ∈ p ++ indentFrom front line t := h ▸ by simp
    have hm := (List.mem_append.1 hm).resolve_left hp
    exact (mem_or_exists_of_mem_indentFrom hm).resolve_right fun ⟨n, hn⟩ => hfront n hn
  obtain ⟨u, v, rfl, hu⟩ := List.eq_append_cons_of_mem hmem
  have hu' : x ∉ p ++ indentFrom front line u := fun hm =>
    (List.mem_append.1 hm).elim hp fun hm =>
      (mem_or_exists_of_mem_indentFrom hm).elim hu fun ⟨n, hn⟩ => hfront n hn
  rw [indentFrom_append, indentFrom_cons_of_ne hx, ← List.append_assoc] at h
  obtain ⟨rfl, rfl⟩ := (append_cons_inj hs hu').1 h
  exact ⟨u, v, rfl, rfl, rfl⟩

/-- A character that is no indentation comes last in the text if it does in the indented text. -/
theorem exists_of_concat_indentFrom (hx : x ≠ '\n') (hfront : ∀ n, x ∉ front n)
    (h : s ++ [x] = indentFrom front line t) : ∃ u, t = u ++ [x] ∧ s = indentFrom front line u := by
  cases t using List.reverseRecOn with
  | nil => simp at h
  | append_singleton u c =>
      by_cases hc : c = '\n'
      · subst hc
        rw [indentFrom_append, indentFrom_cons_newline, indentFrom_nil, List.append_nil] at h
        have hlast := congrArg List.getLast? h
        rw [List.getLast?_concat, List.getLast?_append, Option.or_of_isSome (by simp)] at hlast
        rcases List.mem_cons.1 (List.mem_of_getLast? hlast.symm) with hx' | hx'
        · exact absurd hx' hx
        · exact absurd hx' (hfront _)
      · rw [indentFrom_append, indentFrom_cons_of_ne hc] at h
        obtain ⟨rfl, hxc⟩ := List.append_inj' h rfl
        obtain rfl : x = c := by simpa using hxc
        exact ⟨u, rfl, rfl⟩

end

end StyleBlocks.Text
