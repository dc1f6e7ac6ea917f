import StyleBlocks.Block.Indentation
import StyleBlocks.Proofs.Checked.Access

/-!
# Normalizing with checked access

Whether a line is indented deep enough is found out on its first bytes, at the last of which the line is
then cut. All of these are blanks, so the cut does not fall into a character.

## Main results

* `Checked.stripLine_eq`: taking the indentation from a line does not fault.
* `Checked.normalize_eq`: normalizing does not fault.
-/

namespace StyleBlocks.Checked

open Template

/-- The bytes of the blanks that lines are indented with. -/
def isIndentByte (b : UInt8) : Bool :=
  b == 0x20 || b == 0x09

/-- The indentation of a line and what follows it, cut `base` bytes behind the start of the line if these
are blanks. -/
def stripLine (base : Nat) (l : Text) : Option (Text × Text) :=
  if 0 < base ∧ base ≤ Text.byteSize l ∧ ((RawText.utf8 l).take base).all isIndentByte = true then do
    return (← Text.slice? 0 base l, ← tail base l)
  else some ([], l)

/-- The extent of the first line of a list if it is blank and not the last, and the other lines. -/
def dropBlankLine (ls : List Text) : Option (Extent × List Text) :=
  if 1 < ls.length then do
    let first ← ls[0]?
    return if Normalized.isBlankLine first then (⟨Text.byteSize first + 1, 1⟩, ls.drop 1) else ({}, ls)
  else some ({}, ls)

/-- A text without its blank first line and without the indentation of the given width. -/
def normalize (text : Text) (base : Nat) : Option Normalized := do
  let (dropped, ls) ← dropBlankLine (Text.lines text)
  let last ← sub ls.length 1
  let stripped ← ls.mapM (stripLine base)
  let taken := stripped.map Prod.fst
  return {
    text := Text.joinLines (stripped.map Prod.snd)
    indentations :=
      { lines := Normalized.entriesFrom 1 taken
        trailing := taken[last]?.filter fun t => !t.isEmpty }
    dropped := dropped }

/-- Indent characters are told by their one byte. -/
theorem isByteClass_isIndentByte : IsByteClass isIndentByte Normalized.isIndent where
  lt_of_mem c h := by
    have h : c = ' ' ∨ c = '\t' := by simpa [Normalized.isIndent] using h
    rcases h with rfl | rfl <;> decide
  eq_of_lt c h := by
    have hspace : UInt8.ofNat c.toNat = 0x20 ↔ c = ' ' :=
      ⟨RawText.eq_of_ofNat_toNat (d := ' ') h (by decide), by rintro rfl; rfl⟩
    have htab : UInt8.ofNat c.toNat = 0x09 ↔ c = '\t' :=
      ⟨RawText.eq_of_ofNat_toNat (d := '\t') h (by decide), by rintro rfl; rfl⟩
    simp only [isIndentByte, Normalized.isIndent, Bool.beq_eq_decide_eq, hspace, htab]
  eq_false b h := by
    have hne : ∀ n : UInt8, n < 128 → b ≠ n := by
      rintro n hn rfl
      exact absurd h (UInt8.not_le.2 hn)
    simp [isIndentByte, hne 0x20 (by decide), hne 0x09 (by decide)]

/-- **Taking the indentation from a line does not fault.** -/
theorem stripLine_eq (base : Nat) (l : Text) :
    stripLine base l = some (Normalized.stripLine base l) := by
  simp only [stripLine, Normalized.stripLine, isByteClass_isIndentByte.all_take_iff]
  rcases Nat.eq_zero_or_pos base with rfl | hpos
  · simp
  by_cases h : base ≤ l.length ∧ (l.take base).all Normalized.isIndent = true
  · have hsize : Text.byteSize (l.take base) = base := by
      rw [isByteClass_isIndentByte.byteSize_eq_length h.2, List.length_take, Nat.min_eq_left h.1]
    have hfront := Text.slice?_append [] (l.take base) (l.drop base)
    have hback := tail_append (l.take base) (l.drop base)
    simp only [List.nil_append, Text.byteSize_nil, hsize, List.take_append_drop] at hfront hback
    rw [if_pos ⟨hpos, h⟩, if_pos h, hfront, hback]
    rfl
  · rw [if_neg fun hall => h hall.2, if_neg h]

/-- A blank line is dropped without a fault. -/
theorem dropBlankLine_eq (ls : List Text) :
    dropBlankLine ls = some (Normalized.dropBlankLine ls) := by
  match ls with
  | [] | [l] => rfl
  | l :: m :: ls =>
      simp only [dropBlankLine, Normalized.dropBlankLine, List.length_cons]
      rw [if_pos (by omega)]
      rfl

/-- A line is left when the blank one has been dropped. -/
theorem snd_dropBlankLine_ne_nil (t : Text) : (Normalized.dropBlankLine (Text.lines t)).2 ≠ [] := by
  match h : Text.lines t with
  | [] => exact absurd h (Text.lines_ne_nil t)
  | [l] => simp [Normalized.dropBlankLine]
  | l :: m :: ls =>
      rw [Normalized.dropBlankLine]
      split <;> simp

/-- **Normalizing does not fault.** -/
theorem normalize_eq (text : Text) (base : Nat) :
    normalize text base = some (Normalized.ofText text base) := by
  have hpos := List.length_pos_iff.2 (snd_dropBlankLine_ne_nil text)
  have hstrip : stripLine base = fun l => pure (Normalized.stripLine base l) :=
    funext (stripLine_eq base)
  have hlines (ls : List Text) :
      ls.mapM (stripLine base) = some (ls.map (Normalized.stripLine base)) := by
    rw [hstrip, List.mapM_pure]
    rfl
  simp only [normalize, Normalized.ofText, dropBlankLine_eq, hlines, sub_of_le hpos,
    Option.pure_def, Option.bind_eq_bind, Option.bind_some, List.getLast?_eq_getElem?, List.length_map]

end StyleBlocks.Checked
