import StyleBlocks.Text.Basic

/-!
# Block comments

Host code and style text share one form of block comment, which runs from a slash-star to the first
star-slash after it.
-/

namespace StyleBlocks.Text

/-- The part of a text up to the first star-slash, that included, or `none` if there is none. -/
def commentRun : Text → Option Text
  | [] => none
  | '*' :: '/' :: _ => some ['*', '/']
  | c :: t => (commentRun t).map (c :: ·)

/-- A comment goes on with a front of the text. -/
theorem commentRun_isPrefix {t r : Text} (h : commentRun t = some r) : r <+: t := by
  fun_induction commentRun t generalizing r with
  | case1 => simp at h
  | case2 t => simp at h; subst h; simp [List.cons_prefix_cons]
  | case3 c t _ ih =>
    obtain ⟨u, hu, rfl⟩ := Option.map_eq_some_iff.1 h
    simpa [List.cons_prefix_cons] using ih hu

end StyleBlocks.Text
