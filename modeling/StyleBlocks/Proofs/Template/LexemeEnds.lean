import Mathlib.Data.List.TakeWhile
import StyleBlocks.Proofs.Template.RawText
import StyleBlocks.Template.Lexeme

/-!
# Where lexemes end

A lexeme is as long as it can be, so what stands behind it can matter. A closing brace behind the
text does not: it goes on no name, numeral or operator, and it is left alone by a string or a block
comment that has its end. Only a comment up to the end of its line would take it in, unless that line
ends before.

## Main results

* `Lexeme.read_append_closeBrace`: a lexeme is read as before when a closing brace follows the text.
-/

namespace StyleBlocks

/-! ### Runs of characters -/

/-- A text that starts behind some text, with another character, starts in it. -/
theorem exists_eq_cons_of_append_eq {t u v : Text} {c d : Char} (h : t ++ d :: u = c :: v)
    (hne : c ≠ d) : ∃ w, t = c :: w := by
  rcases List.append_eq_cons_iff.1 h with ⟨-, h⟩ | ⟨w, hw, -⟩
  · exact absurd (List.cons.inj h).1.symm hne
  · exact ⟨w, hw⟩

/-- A character that does not go on a run ends it. -/
theorem takeWhile_append_cons {p : Char → Bool} {c : Char} (hc : p c = false) (t u : Text) :
    (t ++ c :: u).takeWhile p = t.takeWhile p := by
  induction t with
  | nil => simp [hc]
  | cons d t ih => simp [List.takeWhile_cons, ih]

/-- A run that ends before the text does not get longer. -/
theorem takeWhile_append_of_ne {p : Char → Bool} {t : Text} (h : t.takeWhile p ≠ t) (u : Text) :
    (t ++ u).takeWhile p = t.takeWhile p := by
  rw [List.takeWhile_append, if_neg]
  exact fun hlen => h ((List.takeWhile_prefix p).eq_of_length hlen)

/-- A comment that has its end does not get longer. -/
theorem Text.commentRun_append_of_eq_some {t r : Text} (h : Text.commentRun t = some r) (u : Text) :
    Text.commentRun (t ++ u) = some r := by
  fun_induction Text.commentRun t generalizing r with
  | case1 => contradiction
  | case2 t => exact h
  | case3 c t hne ih =>
      obtain ⟨s, hs, rfl⟩ := Option.map_eq_some_iff.1 h
      rw [List.cons_append, Text.commentRun, ih hs]
      · rfl
      · rintro v rfl hv
        cases t with
        | nil => simp [Text.commentRun] at hs
        | cons d t =>
            cases hv
            exact hne t rfl rfl

namespace Template

open RawText (ne_backslash)

/-- A character outside an escape pair ends a string or belongs to it. -/
theorem stringRun_cons {q c : Char} (hc : c ≠ '\\') (t : Text) :
    stringRun q (c :: t) = if c == q || isLineEnd c then [] else c :: stringRun q t := by
  rw [stringRun]
  all_goals simp [hc]

/-- A string that has its closing quote does not get longer. -/
theorem stringRun_append {q : Char} (hq : q = '\x22' ∨ q = '\x27') {t : Text}
    (h : stringRun q t ++ [q] <+: t) (u : Text) : stringRun q (t ++ u) = stringRun q t := by
  have hne : q ≠ '\r' := by rcases hq with rfl | rfl <;> decide
  fun_induction stringRun q t with
  | case1 => simp at h
  | case2 t ih =>
      simp only [List.cons_append, List.cons_prefix_cons, true_and] at h
      simp [stringRun, ih h]
  | case3 => simp [List.cons_prefix_cons, hne] at h
  | case4 t => simp [List.cons_prefix_cons, hne] at h
  | case5 c t hfeed hend hreturn ih =>
      simp only [List.cons_append, List.cons_prefix_cons, true_and] at h
      -- The closing quote stands behind the pair, so the text added does not touch it.
      have htail : ∀ d v, t ++ u = d :: v → ∃ w, t = d :: w := by
        intro d v hv
        rcases List.append_eq_cons_iff.1 hv with ⟨rfl, -⟩ | ⟨w, hw, -⟩
        · simp at h
        · exact ⟨w, hw⟩
      rw [List.cons_append, List.cons_append, stringRun, ih h]
      · rintro v rfl hv
        obtain ⟨w, hw⟩ := htail _ _ hv
        exact hfeed w rfl hw
      · rintro rfl hv
        exact hend rfl (List.append_eq_nil_iff.1 hv).1
      · rintro v rfl hv
        obtain ⟨w, hw⟩ := htail _ _ hv
        exact hreturn w rfl hw
  | case6 => simp at h
  | case7 c t _ _ _ hpair hend hc =>
      rw [List.cons_append, stringRun_cons (ne_backslash hend hpair), if_pos hc]
  | case8 c t _ _ _ hpair hend hc ih =>
      simp only [List.cons_append, List.cons_prefix_cons, true_and] at h
      rw [List.cons_append, stringRun_cons (ne_backslash hend hpair), if_neg hc, ih h]

namespace Lexeme

/-! ### Lexemes by their first characters -/

/-- Two slashes begin a comment that goes on to the end of the line. -/
theorem body_lineComment (t : Text) :
    body '/' ('/' :: t) = (some .lineComment, '/' :: t.takeWhile fun d => !isLineEnd d) := rfl

/-- A slash and a star begin a comment that goes on to where it is closed. -/
theorem body_blockComment {t r : Text} (h : Text.commentRun t = some r) :
    body '/' ('*' :: t) = (some .blockComment, '*' :: r) := by
  simp [body, h, isInlineBlank, isNameStart]

/-- A hash begins a private name if a name follows. -/
theorem body_privateName (d : Char) (t : Text) :
    body '#' (d :: t) =
      if isNameStart d then (some .privateName, d :: t.takeWhile isNamePart) else (none, []) := rfl

/-- A dot begins a number if a digit follows, and is a lexeme by itself otherwise. -/
theorem body_dot {d : Char} {t : Text} (h : ∀ u, d = '.' → t = '.' :: u → False) :
    body '.' (d :: t) =
      if d.isDigit then (some .number, d :: t.takeWhile isFractionPart) else (some .dot, []) := by
  unfold body
  split
  · contradiction
  split
  · contradiction
  split
  · contradiction
  split
  all_goals simp_all

/-- A quote begins a string, which is a lexeme if it is closed. -/
theorem body_quote {c : Char} (hc : c = '\x22' ∨ c = '\x27') (t : Text) :
    body c t = if stringRun c t ++ [c] <+: t then (some .string, stringRun c t ++ [c])
      else (none, stringRun c t) := by
  rcases hc with rfl | rfl <;> rfl

/-- A character of an operator begins one that goes on as far as there are such characters. -/
theorem body_operator {c : Char} {t : Text} (hc : isOperatorPart c)
    (hchain : ∀ u, c = '?' → t = '.' :: u → False) (harrow : ∀ u, c = '=' → t = '>' :: u → False) :
    body c t = (some .operator, t.takeWhile isOperatorPart) := by
  simp only [isOperatorPart, String.reduceToList, List.contains_eq_mem, List.mem_cons,
    List.not_mem_nil, or_false, decide_eq_true_eq] at hc
  cases t with
  | nil =>
      rcases hc with rfl | rfl | rfl | rfl | rfl | rfl | rfl | rfl | rfl | rfl | rfl | rfl | rfl
      all_goals rfl
  | cons d t =>
      rcases hc with rfl | rfl | rfl | rfl | rfl | rfl | rfl | rfl | rfl | rfl | rfl | rfl | rfl
      all_goals simp_all [body, isInlineBlank, isNameStart, isOperatorPart]

/-! ### Lexemes in front of a closing brace -/

/-- The lexeme that a character begins is the same when a closing brace follows the text. -/
theorem body_append_closeBrace {c : Char} {t : Text} {k : LexemeKind} (h : (body c t).1 = some k)
    (hline : k = .lineComment → rest c t ≠ []) (u : Text) :
    body c (t ++ '}' :: u) = body c t := by
  unfold body at h
  split at h
  · next hc =>
      have hrun := takeWhile_append_cons (show isInlineBlank '}' = false from rfl) t u
      simp only [body, if_pos hc, hrun]
  split at h
  · next hblank hc =>
      have hrun := takeWhile_append_cons (show isNamePart '}' = false from rfl) t u
      simp only [body, if_neg hblank, if_pos hc, hrun]
  split at h
  · next hblank hname hc =>
      have hrun := takeWhile_append_cons (show isNumberPart '}' = false from rfl) t u
      simp only [body, if_neg hblank, if_neg hname, if_pos hc, hrun]
  split at h
  case h_4 v _ _ _ =>
    cases h
    have hends : v.takeWhile (fun d => !isLineEnd d) ≠ v := by
      intro hv
      refine hline rfl ?_
      simp [rest, body_lineComment, hv]
    rw [List.cons_append, body_lineComment, body_lineComment, takeWhile_append_of_ne hends]
  case h_5 v _ _ _ =>
    cases hr : Text.commentRun v with
    | none => simp [hr] at h
    | some r =>
        rw [List.cons_append, body_blockComment hr,
          body_blockComment (Text.commentRun_append_of_eq_some hr _)]
  case h_8 d v _ _ _ =>
    rw [List.cons_append, body_privateName, body_privateName, takeWhile_append_cons rfl]
  case h_10 d v hne _ _ _ =>
    rw [List.cons_append, body_dot hne, body_dot, takeWhile_append_cons rfl]
    intro w hd hw
    obtain ⟨x, hx⟩ := exists_eq_cons_of_append_eq hw (by decide)
    exact hne x hd hx
  case h_25 =>
    rename_i hchain harrow
    by_cases hq : c = '\x22' ∨ c = '\x27'
    · have hrun : stringRun c t ++ [c] <+: t := by
        by_contra hrun
        simp [hq, hrun] at h
      rw [body_quote hq, body_quote hq, stringRun_append hq hrun, if_pos hrun,
        if_pos (hrun.trans (List.prefix_append _ _))]
    · have hop : isOperatorPart c := by
        by_contra hop
        simp [hq, hop] at h
      rw [body_operator hop hchain harrow, body_operator hop, takeWhile_append_cons rfl]
      · intro v hc hv
        obtain ⟨w, hw⟩ := exists_eq_cons_of_append_eq hv (by decide)
        exact hchain w hc hw
      · intro v hc hv
        obtain ⟨w, hw⟩ := exists_eq_cons_of_append_eq hv (by decide)
        exact harrow w hc hw
  -- All other lexemes are told by at most one more character, which is no brace.
  all_goals first | rfl | (rcases t with _ | ⟨d, t⟩ <;> simp_all [body])

/-- **A lexeme is read as before when a closing brace follows the text**, unless it is a comment that
the end of the text ends. -/
theorem read_append_closeBrace {c : Char} {t : Text} {k : LexemeKind}
    (h : (read c t).kind = some k) (hline : k = .lineComment → rest c t ≠ []) (u : Text) :
    read c (t ++ '}' :: u) = read c t ∧ rest c (t ++ '}' :: u) = rest c t ++ '}' :: u := by
  have hbody := body_append_closeBrace h hline u
  refine ⟨by simp only [read, hbody], ?_⟩
  rw [rest, hbody, rest, List.drop_append_of_le_length (body_isPrefix c t).length_le]

end Lexeme

end Template

end StyleBlocks
