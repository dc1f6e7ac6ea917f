import StyleBlocks.Proofs.Block.Extracted
import StyleBlocks.Block.Relocation

/-!
# Walking over style text and its host at once

A place of the normalized text and its place in the host move together: over a character by the same
distance, over a line feed to the next line, where the host has the indentation in front, and over a
hole by the placeholder here and by the text of the hole there. `Relocation.Tracks` says how the two
places and the tally of the holes behind them hang together, and each of these steps keeps it.

## Main results

* `Relocation.Tracks.hole`: a hole, on one line or on several, is tallied as the host goes on.
* `Relocation.Tracks.run`: the same for any atoms.
* `Relocation.Tracks.place_eq`: where places hang together, a relocation finds the one from the
  other.
-/

namespace StyleBlocks

open Placeholder

/-- The column to which the columns of a line are shifted by the holes in front of it. -/
def Relocation.Tally.columnsOn (T : Relocation.Tally) (line : Nat) : Int :=
  if line = T.line then T.columns else 0

namespace Relocation

/-- The place `l` at the offset `o` of the normalized text and the place `H` at the offset `h` of
the host **hang together**, if the holes in front of them have the tally `T`. -/
structure Tracks (r : Relocation) (o : Nat) (l : Position) (h : Nat) (H : Position) (T : Tally) :
    Prop where
  offset : (h : Int) =
    o + r.offset + r.config.frontBytes + T.bytes + r.config.indentations.cumulative l.line
  line : (H.line : Int) = l.line + ((r.position.line : Int) - 1) + r.config.frontLines + T.lines
  column : (H.column : Int) =
    l.column + r.config.indentations.width l.line + T.columnsOn H.line
  le : T.line ≤ H.line

variable {r : Relocation} {o h : Nat} {l H : Position} {T : Tally}

namespace Tracks

/-- Both places move by the same distance within a line. -/
theorem within (ht : r.Tracks o l h H T) (d : Nat) :
    r.Tracks (o + d) ⟨l.line, l.column + d⟩ (h + d) ⟨H.line, H.column + d⟩ T where
  offset := by
    have := ht.offset
    push_cast
    omega
  line := ht.line
  column := by
    have := ht.column
    push_cast
    omega
  le := ht.le

/-- Behind a line feed the host has the indentation of the line in front. -/
theorem newline (ht : r.Tracks o l h H T) {front : Text}
    (hfront : front = r.config.indentations.front (l.line + 1)) (hn : '\n' ∉ front)
    (hcum : r.config.indentations.cumulative (l.line + 1) =
      r.config.indentations.cumulative l.line + Text.byteSize front) :
    r.Tracks (o + 1) ⟨l.line + 1, 1⟩ (h + 1 + Text.byteSize front)
      ((H.next '\n').advance front) T := by
  have hwidth : r.config.indentations.width (l.line + 1) = Text.byteSize front := by
    rw [hfront]
    rfl
  have hle := ht.le
  rw [Position.next_newline, Position.advance_of_notMem hn]
  refine ⟨?_, ?_, ?_, ?_⟩
  · have := ht.offset
    simp only [hcum]
    push_cast
    omega
  · have := ht.line
    push_cast
    omega
  · have hline : H.line + 1 ≠ T.line := by omega
    simp only [hwidth, Tally.columnsOn, if_neg hline]
    push_cast
    omega
  · simp only
    omega

/-- **A hole is tallied as the host goes on**: here the placeholder is passed, there the text of the
hole. -/
theorem hole (ht : r.Tracks o l h H T) {placeholder e : Text} (hp : '\n' ∉ placeholder) {s : Shift}
    (hsize : s.placeholderSize = Text.byteSize placeholder) (hhost : s.hostSize = Text.byteSize e)
    (hstart : s.start = H) (hstop : s.stop = H.advance e) :
    r.Tracks (o + Text.byteSize placeholder) (l.advance placeholder) (h + Text.byteSize e)
      (H.advance e) (T.add s) := by
  have hle := ht.le
  have hline : (H.advance e).line = H.line + e.breaks := Position.line_advance H e
  rw [Position.advance_of_notMem hp]
  refine ⟨?_, ?_, ?_, ?_⟩
  · have := ht.offset
    simp only [Tally.add, Shift.growth, hsize, hhost]
    push_cast
    omega
  · have := ht.line
    simp only [Tally.add, hstart, hstop]
    omega
  · have hcolumn := ht.column
    by_cases hn : '\n' ∈ e
    · -- The hole ends on another line, where columns are counted anew.
      have hpos : 0 < e.breaks := List.count_pos_iff.2 hn
      have hne : T.line ≠ (H.advance e).line := by omega
      have hne' : H.line ≠ (H.advance e).line := by omega
      have hcarried : (if T.line = H.line then T.columns else 0) = T.columnsOn H.line := by
        simp only [Tally.columnsOn, eq_comm]
      simp only [Tally.add, Tally.columnsOn, hstart, hstop, hsize, if_neg hne, if_neg hne',
        if_true] at *
      push_cast
      omega
    · rw [Position.advance_of_notMem hn] at hstop ⊢
      by_cases hsame : T.line = H.line
      · -- The hole stands behind another one on its line, or on the opening line.
        simp only [Tally.add, Tally.columnsOn, Shift.growth, hstop, hsize, hhost, hsame,
          if_true] at *
        push_cast
        omega
      · have hother : H.line ≠ T.line := Ne.symm hsame
        simp only [Tally.add, Tally.columnsOn, Shift.growth, hstart, hstop, hsize, hhost,
          if_neg hsame, if_neg hother, if_true] at *
        push_cast
        omega
  · simp [Tally.add, hstop]

end Tracks

/-! ### Walking over atoms -/

/-- The holes among pieces, each with its text and the place where it starts, if the pieces start at
the place `H`. -/
def holes (es : List Text) (H : Position) : List Piece → List (Text × Position)
  | [] => []
  | .literal t :: m => holes es (H.advance t) m
  | .hole i t :: m =>
    ((Piece.hole i t).resolve id es, H) ::
      holes es (H.advance ((Piece.hole i t).resolve id es)) m

/-- The shift for a placeholder and the hole that it stands for. -/
def shift (f : Found) (e : Text × Position) : Shift where
  localEnd := f.span.stop
  placeholderSize := f.span.size
  hostSize := Text.byteSize e.1
  start := e.2
  stop := e.2.advance e.1

/-- The holes behind some text. -/
theorem holes_chars_append (es : List Text) (H : Position) (t : Text) (m : List Piece) :
    holes es H (chars t ++ m) = holes es (H.advance t) m := by
  induction t generalizing H with
  | nil => rfl
  | cons c t ih => exact ih (H.next c)

/-- An atom that is no escape pair. -/
def IsPlain (a : Piece) : Prop :=
  (∃ c, a = .literal [c]) ∨ ∃ i, a = .hole i (create i)

/-- **Walking over atoms** keeps the places together, and tallies the holes among the atoms. -/
theorem Tracks.run (es : List Text) {m : List Piece} (hm : ∀ a ∈ m, IsPlain a)
    (hfront : ∀ k, '\n' ∉ r.config.indentations.front k)
    (hcum : ∀ k, r.config.indentations.cumulative (k + 1) =
      r.config.indentations.cumulative k + Text.byteSize (r.config.indentations.front (k + 1)))
    (ht : r.Tracks o l h H T) :
    r.Tracks (o + Text.byteSize (texts m)) (l.advance (texts m))
      (h + Text.byteSize (expand es (indent r.config.indentations.front l.line m)))
      (H.advance (expand es (indent r.config.indentations.front l.line m)))
      ((List.zipWith shift (foundFrom o m)
        (holes es H (indent r.config.indentations.front l.line m))).foldl Tally.add T) := by
  induction m generalizing o l h H T with
  | nil => exact ht
  | cons a m ih =>
      have ih := fun {o l h H T} => @ih o h l H T fun b hb => hm b (List.mem_cons_of_mem _ hb)
      rcases hm a List.mem_cons_self with ⟨c, rfl⟩ | ⟨i, rfl⟩
      · by_cases hc : c = '\n'
        · subst hc
          have hstep := ih (ht.newline rfl (hfront _) (hcum _))
          simpa [indent, foundFrom, holes, holes_chars_append, Nat.add_assoc] using hstep
        · have hne : Piece.literal [c] ≠ .literal ['\n'] := by simpa using hc
          have hstep := ih (ht.within c.utf8Size)
          simpa [indent, hne, foundFrom, holes, Position.next, hc, Nat.add_assoc] using hstep
      · have hne : Piece.hole i (create i) ≠ .literal ['\n'] := by simp
        have hstep := ih (ht.hole (notMem_create rfl (by decide) i)
          (s := shift ⟨i, ⟨o, o + Text.byteSize (create i)⟩⟩
            ((Piece.hole i (create i)).resolve id es, H))
          (by simp [shift, Span.size]) rfl rfl rfl)
        have hline : (l.advance (create i)).line = l.line := by
          rw [Position.advance_of_notMem (notMem_create rfl (by decide) i)]
        rw [hline] at hstep
        simpa [indent, hne, foundFrom, holes, Nat.add_assoc] using hstep

/-! ### Places that are found -/

/-- **Where places hang together, a relocation finds the one from the other**, and neither the
offset nor the column is clamped. -/
theorem Tracks.place_eq (ht : r.Tracks o l h H (r.tally o)) (hh : h < Word.signedLimit)
    (hline : H.line < Word.signedLimit) (hpos : 0 < H.column)
    (hcolumn : H.column < Word.signedLimit) :
    r.place o l = (h, H) ∧ 0 ≤ r.hostByte o l ∧ 1 ≤ r.hostColumn o l := by
  have hhostLine : r.hostLine o l = H.line := by
    rw [hostLine, ← ht.line]
    exact Word.ofInt_natCast (by rw [Word.count_eq]; omega)
  have hhostByte : r.hostByte o l = h := by
    rw [hostByte, ← ht.offset]
    exact Word.signed_eq_self (by omega) (by omega)
  have hhostColumn : r.hostColumn o l = H.column := by
    have hshift : (if r.hostLine o l = (r.tally o).line then
        (l.column : Int) + r.config.indentations.width l.line + (r.tally o).columns
        else l.column + r.config.indentations.width l.line) = H.column := by
      rw [ht.column, hhostLine, Tally.columnsOn]
      split <;> omega
    rw [hostColumn, hshift]
    exact Word.signed_eq_self (by omega) (by omega)
  refine ⟨?_, by omega, by omega⟩
  have hmax : max (H.column : Int) 1 = H.column := by omega
  rw [place, hhostByte, hhostLine, hhostColumn, hmax, Int.toNat_natCast, Int.toNat_natCast]

end Relocation

end StyleBlocks
