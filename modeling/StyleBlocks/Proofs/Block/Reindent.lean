import Mathlib.Tactic.Tauto
import StyleBlocks.Block.Relocation
import StyleBlocks.Proofs.Text.Indent

/-!
# Taking indentation away and putting it back

`Indentations.front` is what was taken from each line. Normalizing a text takes a blank first line
and the fronts away, and indenting the normalized text by the fronts gives all but the blank first
line back. A relocation indents single texts of a tree by the same fronts.

## Main results

* `Normalized.ofText_spec`: indenting a normalized text gives the text behind its dropped line.
* `Relocation.reindent_eq`: what a relocation makes of a text that stands at a cut of the normalized
  text.
-/

namespace StyleBlocks

/-- What was taken from a line; nothing if the line is not listed. -/
def Indentations.front (i : Indentations) (line : Nat) : Text :=
  (i.line? line).getD []

namespace Normalized

/-! ### Entries -/

/-- Entries are listed for the lines from the first on. -/
theorem le_of_mem_entriesFrom {line : Nat} {ts : List Text} {e : Nat × Text}
    (he : e ∈ entriesFrom line ts) : line ≤ e.1 := by
  induction ts generalizing line with
  | nil => contradiction
  | cons t ts ih =>
      simp only [entriesFrom] at he
      split at he
      · have := ih he
        omega
      · rcases List.mem_cons.1 he with rfl | he
        · exact Nat.le_refl _
        · have := ih he
          omega

/-- The entry for a line is what was taken from it. -/
theorem lookup_entriesFrom (line k : Nat) (ts : List Text) :
    ((entriesFrom line ts).lookup (line + k)).getD [] = ts[k]?.getD [] := by
  induction ts generalizing line k with
  | nil => rfl
  | cons t ts ih =>
      cases k with
      | zero =>
          by_cases ht : t = []
          · have hnone : (entriesFrom (line + 1) ts).lookup line = none := by
              rw [List.lookup_eq_none_iff]
              intro e he
              have := le_of_mem_entriesFrom he
              rw [bne_iff_ne]
              omega
            simp [entriesFrom, ht, hnone]
          · simp [entriesFrom, ht]
      | succ k =>
          have hline : line + (k + 1) = line + 1 + k := by omega
          have ih := ih (line + 1) k
          by_cases ht : t = []
          · simpa [entriesFrom, ht, hline] using ih
          · have hne : (line + 1 + k == line) = false := by
              rw [beq_eq_false_iff_ne]
              omega
            simpa [entriesFrom, ht, hline, List.lookup_cons, hne] using ih

/-- The sizes of what was taken from the lines up to one add up. -/
theorem sum_entriesFrom (line n : Nat) (ts : List Text) :
    ((entriesFrom line ts).filter fun e => e.1 ≤ n).foldr (fun e k => Text.byteSize e.2 + k) 0 =
      Text.byteSize (ts.take (n + 1 - line)).flatten := by
  induction ts generalizing line with
  | nil => simp [entriesFrom]
  | cons t ts ih =>
      have ih := ih (line + 1)
      have hnext : n + 1 - (line + 1) = n - line := by omega
      rw [hnext] at ih
      by_cases hle : line ≤ n
      · have htake : n + 1 - line = n - line + 1 := by omega
        by_cases ht : t = []
        · simp [entriesFrom, ht, ih, htake]
        · simp [entriesFrom, ht, ih, htake, hle]
      · have htake : n + 1 - line = 0 := by omega
        have hzero : n - line = 0 := by omega
        by_cases ht : t = []
        · simp [entriesFrom, ht, ih, htake, hzero]
        · simp [entriesFrom, ht, ih, htake, hzero, hle]

/-! ### Lines -/

/-- A line is the indentation that is taken off and what is kept. -/
theorem stripLine_append (base : Nat) (l : Text) :
    (stripLine base l).1 ++ (stripLine base l).2 = l := by
  rw [stripLine]
  split
  · exact List.take_append_drop base l
  · rfl

/-- What is taken off a line is indentation. -/
theorem isIndent_of_mem_stripLine {base : Nat} {l : Text} {c : Char}
    (hc : c ∈ (stripLine base l).1) : isIndent c = true := by
  rw [stripLine] at hc
  split at hc
  · next h => exact List.all_eq_true.1 h.2 c hc
  · contradiction

/-- The lines that are left when a blank first line is dropped, and what the dropped line was. -/
theorem dropBlankLine_spec (text : Text) :
    ∃ d, text = d ++ Text.joinLines (dropBlankLine (Text.lines text)).2 ∧
      Text.byteSize d = (dropBlankLine (Text.lines text)).1.bytes ∧
      d.breaks = (dropBlankLine (Text.lines text)).1.lines ∧
      (∀ c ∈ d, isIndent c = true ∨ c = '\r' ∨ c = '\n') ∧ Text.AtLineStart d ∧
      (dropBlankLine (Text.lines text)).2 ≠ [] ∧
      ∀ l ∈ (dropBlankLine (Text.lines text)).2, '\n' ∉ l := by
  have htext := Text.joinLines_lines text
  have hmem : ∀ l ∈ Text.lines text, '\n' ∉ l := fun l hl => Text.notMem_of_mem_lines hl
  have hkeep : text = [] ++ Text.joinLines (Text.lines text) := by rw [htext, List.nil_append]
  unfold dropBlankLine
  split
  · next l m ls hl =>
      rw [hl] at htext hmem hkeep
      split
      · next hblank =>
          have hnl := Text.breaks_eq_zero (hmem l List.mem_cons_self)
          refine ⟨l ++ ['\n'], ?_, by simp, by simp [hnl], ?_, Or.inr (by simp), by simp,
            fun k hk => hmem k (List.mem_cons_of_mem _ hk)⟩
          · rw [← htext]
            simp [Text.joinLines]
          · intro c hc
            rcases List.mem_append.1 hc with hc | hc
            · have := List.all_eq_true.1 hblank c hc
              rw [Bool.or_eq_true, beq_iff_eq] at this
              exact this.imp_right Or.inl
            · exact Or.inr (Or.inr (List.mem_singleton.1 hc))
      · exact ⟨[], hkeep, rfl, rfl, by simp, Or.inl rfl, by simp, hmem⟩
  · next ls hl => exact ⟨[], hkeep, rfl, rfl, by simp, Or.inl rfl, Text.lines_ne_nil text, hmem⟩

/-- **Normalizing keeps everything**: the dropped line in front and the fronts of the lines put
back, the normalized text is the text. -/
theorem ofText_spec (text : Text) (base : Nat) :
    ∃ d, text = d ++ ((ofText text base).indentations.front 1 ++
        Text.indentFrom (ofText text base).indentations.front 1 (ofText text base).text) ∧
      Text.byteSize d = (ofText text base).dropped.bytes ∧
      d.breaks = (ofText text base).dropped.lines ∧
      (∀ c ∈ d, isIndent c = true ∨ c = '\r' ∨ c = '\n') ∧ Text.AtLineStart d := by
  obtain ⟨d, htext, hsize, hbreaks, hblank, hline, hne, hmem⟩ := dropBlankLine_spec text
  refine ⟨d, ?_, hsize, hbreaks, hblank, hline⟩
  obtain ⟨l, ls, hls⟩ := List.exists_cons_of_ne_nil hne
  have hfront : ∀ k q, (stripLine base l :: ls.map (stripLine base))[k]? = some q →
      (ofText text base).indentations.front (1 + k) = q.1 := by
    intro k q hk
    rw [← List.map_cons] at hk
    simp only [Indentations.front, Indentations.line?, ofText, lookup_entriesFrom, hls,
      List.getElem?_map, hk, Option.map_some, Option.getD_some]
  have hrest : ∀ q ∈ stripLine base l :: ls.map (stripLine base), '\n' ∉ q.2 := by
    intro q hq hn
    rw [← List.map_cons] at hq
    obtain ⟨m, hm, rfl⟩ := List.mem_map.1 hq
    rw [← hls] at hm
    refine hmem m hm ?_
    rw [← stripLine_append base m]
    exact List.mem_append_right _ hn
  have hjoin := Text.indentFrom_joinLines hrest hfront
  have hwhole :
      (stripLine base l :: ls.map (stripLine base)).map (fun q => q.1 ++ q.2) = l :: ls := by
    simp [stripLine_append, Function.comp_def]
  have hnormal : (ofText text base).text =
      Text.joinLines ((stripLine base l :: ls.map (stripLine base)).map Prod.snd) := by
    simp [ofText, hls]
  rw [hnormal, hjoin, hwhole, ← hls]
  exact htext

/-- What is taken from a line is blanks. -/
theorem isIndent_of_mem_front {text : Text} {base n : Nat} {c : Char}
    (hc : c ∈ (ofText text base).indentations.front n) : isIndent c = true := by
  cases n with
  | zero =>
      have hnone : (ofText text base).indentations.line? 0 = none := by
        rw [Indentations.line?, List.lookup_eq_none_iff]
        intro e he
        have := le_of_mem_entriesFrom he
        rw [bne_iff_ne]
        omega
      rw [Indentations.front, hnone] at hc
      contradiction
  | succ n =>
      rw [Indentations.front, Indentations.line?, ofText, Nat.add_comm] at hc
      rw [lookup_entriesFrom, List.map_map, List.getElem?_map] at hc
      cases hl : (dropBlankLine (Text.lines text)).2[n]? with
      | none => simp [hl] at hc
      | some l =>
          rw [hl] at hc
          exact isIndent_of_mem_stripLine hc

/-- What was taken from all lines up to one. -/
theorem cumulative_eq (text : Text) (base n : Nat) :
    (ofText text base).indentations.cumulative n =
      Text.byteSize (((dropBlankLine (Text.lines text)).2.map fun l =>
        (stripLine base l).1).take n).flatten := by
  rw [Indentations.cumulative, ofText]
  simp only
  rw [sum_entriesFrom, Nat.add_sub_cancel, List.map_map]
  rfl

/-- **One more line** adds what was taken from it. -/
theorem cumulative_succ (text : Text) (base n : Nat) :
    (ofText text base).indentations.cumulative (n + 1) =
      (ofText text base).indentations.cumulative n +
        Text.byteSize ((ofText text base).indentations.front (n + 1)) := by
  have hfront : (ofText text base).indentations.front (n + 1) =
      (((dropBlankLine (Text.lines text)).2.map (stripLine base)).map Prod.fst)[n]?.getD [] := by
    rw [Nat.add_comm]
    exact lookup_entriesFrom 1 n _
  rw [cumulative_eq, cumulative_eq, List.take_add_one, List.flatten_append, Text.byteSize_append,
    hfront]
  congr 1
  cases h : (dropBlankLine (Text.lines text)).2[n]? <;> simp [h]

/-- What was taken from the last line is noted once more. -/
theorem trailing_eq_front (text : Text) (base : Nat) :
    (ofText text base).indentations.trailing.getD [] =
      (ofText text base).indentations.front ((ofText text base).text.breaks + 1) := by
  obtain ⟨d, -, -, -, -, -, hne, hmem⟩ := dropBlankLine_spec text
  have hbreaks : (ofText text base).text.breaks + 1 =
      (dropBlankLine (Text.lines text)).2.length := by
    rw [ofText, Text.breaks_joinLines (by simpa using hne)]
    · simp
    · intro l hl
      simp only [List.map_map, List.mem_map] at hl
      obtain ⟨m, hm, rfl⟩ := hl
      intro hn
      refine hmem m hm ?_
      rw [← stripLine_append base m]
      exact List.mem_append_right _ hn
  rw [hbreaks]
  obtain ⟨ls, l, hls⟩ := (List.eq_nil_or_concat _).resolve_left hne
  rw [List.concat_eq_append] at hls
  have hlen : (ls ++ [l]).length = 1 + ls.length := by simp [Nat.add_comm]
  rw [Indentations.front, Indentations.line?, ofText, hls, hlen, lookup_entriesFrom]
  cases h : (stripLine base l).1.isEmpty <;> simp_all [Option.filter]

end Normalized

namespace Relocation

/-! ### Texts at a cut -/

section

variable {r : Relocation} {p raw s : Text} (hlines : r.lines = LineMap.ofText (p ++ raw ++ s))
include hlines

/-- Indenting a text at a cut: what goes in front of its own first line is nothing or the front of
the line, and its other lines get their fronts. -/
theorem reindent_eq (o : Ownership)
    (htrail : o = .trailing → r.config.indentations.trailing.getD [] =
      r.config.indentations.front ((p ++ raw).breaks + 1)) :
    r.reindent raw (Text.byteSize p) o =
      (if o ≠ .inner ∧ Text.AtLineStart p then
        r.config.indentations.front (p.breaks + 1) else []) ++
      Text.indentFrom r.config.indentations.front (p.breaks + 1) raw := by
  rw [List.append_assoc] at hlines
  have hline : r.lines.lineOf (Text.byteSize p) = p.breaks + 1 := by
    rw [hlines, LineMap.lineOf_append]
  have hstart : r.lines.isLineStart (Text.byteSize p) = true ↔ Text.AtLineStart p := by
    rw [hlines, LineMap.isLineStart_append_iff]
  rw [reindent,
    Text.joinLines_zipIdx_map (fun k => (r.frontOfLine raw (Text.byteSize p) o k).getD []) 0 raw]
  congr 1
  · by_cases hfirst : o ≠ .inner ∧ Text.AtLineStart p
    · rw [if_pos hfirst, frontOfLine, if_neg (by rw [hstart]; tauto), if_neg (by simp), hline]
      rfl
    · rw [if_neg hfirst, frontOfLine, if_pos (by rw [hstart]; tauto)]
      rfl
  · rw [← Nat.zero_add (p.breaks + 1)]
    refine Text.indentFrom_congr fun n hpos hle => ?_
    have hn : n ≠ 0 := Nat.ne_of_gt hpos
    have hadd : p.breaks + 1 + n = n + (p.breaks + 1) := Nat.add_comm _ _
    rw [frontOfLine, if_neg (by simp [hn]), hline]
    split
    · next hlast =>
        have hfront := htrail hlast.1
        have hlen := hlast.2.2
        rw [Text.length_lines] at hlen
        rw [hfront, Text.breaks_append]
        congr 1
        omega
    · rw [Indentations.front, hadd]

end

end Relocation

end StyleBlocks
