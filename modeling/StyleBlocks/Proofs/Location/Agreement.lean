import StyleBlocks.Location.Agreement
import StyleBlocks.Proofs.Location.Advance

/-!
# Ranges that are right

A range of a text is **located** if its ends are boundaries of the text in order and its positions
are those of its ends. The positions lead back to the offsets that they came from, so both name the
same part of the text.

## Main results

* `LineMap.offset?_append`: a place behind a cut is found by its line and column.
* `LineMap.offset?_position`: the position of a boundary leads back to it.
* `Range.IsLocated.agrees`: the span and the positions of a located range name the same part.
-/

namespace StyleBlocks

/-- A boundary is what some text in front of it takes. -/
theorem Text.isBoundary_iff {t : Text} {o : Nat} :
    Text.IsBoundary t o ↔ ∃ p s, t = p ++ s ∧ o = Text.byteSize p := by
  constructor
  · intro h
    exact ⟨_, _, (Text.takeBytes_append_dropBytes o t).symm, h.symm⟩
  · rintro ⟨p, s, rfl, rfl⟩
    rw [Text.IsBoundary, Text.takeBytes_append]

/-- The line of a cut starts where the last line of the text before the cut does. -/
theorem LineMap.lineStart?_append (p s : Text) :
    (LineMap.ofText (p ++ s)).lineStart? (p.breaks + 1) =
      some ((0 :: breaksFrom 0 p).getLastD 0) := by
  have hlen : p.breaks = (0 :: breaksFrom 0 p).length - 1 := by simp [length_breaksFrom]
  rw [lineStart?, if_neg (by omega), Nat.add_sub_cancel, ofText, breaksFrom_append, Nat.zero_add,
    ← List.cons_append, List.getElem?_append_left (by simp [length_breaksFrom]), hlen,
    ← List.getLast?_eq_getElem?, List.getLastD_eq_getLast?, List.getLast?_eq_some_getLast (by simp),
    Option.getD_some]

/-- A column on the line of a cut, behind the column of the cut, leads to as many bytes behind it. -/
theorem LineMap.offset?_append (p : Text) {s : Text} {d : Nat} (hd : d ≤ Text.byteSize s) :
    (LineMap.ofText (p ++ s)).offset?
        ⟨(Position.advance {} p).line, (Position.advance {} p).column + d⟩ =
      some (Text.byteSize p + d) := by
  have hlast := getLastD_starts_le p
  have hsize : Text.byteSize p + d ≤ (LineMap.ofText (p ++ s)).size := by
    simp only [ofText, Text.byteSize_append]
    omega
  have hoffset : (0 :: breaksFrom 0 p).getLastD 0 +
      (Text.byteSize p - (0 :: breaksFrom 0 p).getLastD 0 + 1 + d - 1) = Text.byteSize p + d := by
    omega
  rw [advance_eq, offset?]
  simp only [lineStart?_append, Option.bind_eq_bind, Option.bind_some, hoffset]
  rw [if_neg (by omega), if_pos hsize]

/-- **The position of a boundary leads back to it.** -/
theorem LineMap.offset?_position {t : Text} {o : Nat} (h : Text.IsBoundary t o) :
    (LineMap.ofText t).offset? ((LineMap.ofText t).position o) = some o := by
  obtain ⟨p, s, rfl, rfl⟩ := Text.isBoundary_iff.1 h
  rw [position_append]
  exact offset?_append p (Nat.zero_le _)

/-- A range of a text is **located** if its ends are boundaries in order and its positions are those
of its ends. -/
structure Range.IsLocated (t : Text) (a : Range) : Prop where
  start : Text.IsBoundary t a.span.start
  stop : Text.IsBoundary t a.span.stop
  le : a.span.start ≤ a.span.stop
  eq : a = (LineMap.ofText t).range a.span

/-- The span of a located range names a part of the text. -/
theorem Range.IsLocated.of?_eq {t : Text} {a : Range} (h : a.IsLocated t) :
    a.span.of? t = some (a.span.of t) :=
  if_pos ⟨h.le, h.start, h.stop⟩

/-- **The span and the positions of a located range** name the same part of the text. -/
theorem Range.IsLocated.agrees {t : Text} {a : Range} (h : a.IsLocated t) : a.Agrees t := by
  have hstart := LineMap.offset?_position h.start
  have hstop := LineMap.offset?_position h.stop
  rw [Agrees, textBySpan, h.of?_eq, textByPositions?, h.eq]
  simp only [LineMap.range, hstart, hstop, Option.bind_eq_bind, Option.bind_some]
  exact h.of?_eq

end StyleBlocks
