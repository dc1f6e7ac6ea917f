import StyleBlocks.Proofs.Block.Reindent
import StyleBlocks.Proofs.Sheet.ParseSpelling
import StyleBlocks.Sheet.Dialect

/-!
# Printing puts the indentation back

The style text of a block is parsed without its indentation, and printed with the corrections that a
relocation records. The nodes are then printed with the front of every line, once each. What stands
at the end of a style sheet claims the line it starts on, though that line begins with the text in
front of it if this ends in an escaped line feed; the front of that line is then printed twice.

## Main results

* `Relocation.spells_root`: the fragments of a relocated style sheet spell its tokens, the doubled
  front apart.
* `Relocation.texts_root`: what a relocated style sheet is printed as, compared with the text that
  its text was made of.
* `Relocation.texts_root_eq_iff`: these are the same just if no front is doubled.
-/

namespace StyleBlocks

open Sheet
open Token (texts)

/-- Printing with the corrections of a relocation indents by the fronts of its lines. -/
theorem Sheet.Rendering.relocated_indents {r : Relocation} {text : Text}
    (hlines : r.lines = LineMap.ofText text) :
    (Rendering.relocated r).Indents r.config.indentations.front text where
  write_inner h := by
    have heq := r.reindent_eq (h ▸ hlines) .inner (by simp)
    simpa [Rendering.relocated] using heq
  write_lineStart h := by
    have heq := r.reindent_eq (h ▸ hlines) .lineStart (by simp)
    simpa [Rendering.relocated] using heq

/-- What a dialect parses is what its grammar parses, with the name of the input. -/
theorem Sheet.Dialect.parse_eq_ok (d : Dialect) {origin : Option Text} {t : Text} {root : Root}
    (h : d.parse origin t = .ok root) :
    ∃ sheet, Sheet.parse d.grammar t = .ok sheet ∧ root = { sheet with origin := origin } := by
  cases hp : Sheet.parse d.grammar t with
  | error e => simp [Dialect.parse, hp, Except.map] at h
  | ok sheet => exact ⟨sheet, rfl, by simpa [Dialect.parse, hp, Except.map, eq_comm] using h⟩

namespace Relocation

variable {r : Relocation} {g : Grammar} {t : Text} {root : Root}

/-- The **doubled front**: what is put back in front of what stands at the end of a style sheet
though it was put back before, because a line starts there behind the nodes. -/
def doubledFront (r : Relocation) (s : Root) : Text :=
  let start := r.lines.size - sizeOf? s.after
  if start ≠ 0 ∧ r.lines.isLineStart start then
    r.config.indentations.front (r.lines.lineOf start)
  else []

/-- The fragments of a relocated style sheet. -/
theorem root_corrected (r : Relocation) (s : Root) {after : Text} (hafter : s.after = some after) :
    Printer.root { overrides := .corrected } (r.root s) =
      Printer.nodes { overrides := .corrected } 0 true s.semicolon (s.nodes.map r.node) ++
        Printer.emit .root (r.reindent after (r.lines.size - Text.byteSize after) .trailing) := by
  simp [Printer.root, Relocation.root, nodes_eq_map, hafter, Printer.lookUp, Overrides.corrected,
    record?, getD_get?_record]

/-- The doubled front, where the end of a style sheet stands behind some tokens. -/
theorem doubledFront_eq {done pend : List Token}
    (hlines : r.lines = LineMap.ofText (texts (done ++ pend)))
    (hafter : root.after = some (texts pend)) :
    r.doubledFront root =
      if texts done ≠ [] ∧ Text.AtLineStart (texts done) then
        r.config.indentations.front (lineAfter done) else [] := by
  have hsize : r.lines.size - sizeOf? root.after = Text.byteSize (texts done) := by
    rw [hlines, hafter]
    simp [LineMap.ofText]
  rw [doubledFront, hsize, hlines, Token.texts_append]
  simp only [LineMap.lineOf_append, LineMap.isLineStart_append_iff, Ne, Text.byteSize_eq_zero_iff,
    lineAfter]

/-- What is printed of the blanks at the end of a style sheet, the doubled front apart: the line on
which they start is theirs only if nothing stands in front of them. -/
def tail (r : Relocation) (done pend : List Token) : Text :=
  (if done = [] then r.config.indentations.front 1 else []) ++
    Text.indentFrom r.config.indentations.front (lineAfter done) (texts pend)

/-- **The fragments of a relocated style sheet spell its tokens**, if the doubled front is left out;
there is one only behind an escaped line feed. -/
theorem spells_root (hlines : r.lines = LineMap.ofText t)
    (htrail : r.config.indentations.trailing.getD [] = r.config.indentations.front (t.breaks + 1))
    (h : Sheet.parse g t = .ok root) :
    ∃ done pend, Token.tokenize t = .ok (done ++ pend) ∧
      (∀ k ∈ pend, k.kind = .space ∨ k.kind = .semicolon) ∧
      Printer.root { overrides := .corrected } (r.root root) =
        Printer.nodes { overrides := .corrected } 0 true root.semicolon (root.nodes.map r.node) ++
          Printer.emit .root (r.doubledFront root ++ r.tail done pend) ∧
      Spells r.config.indentations.front (r.config.indentations.front 1) [] (done ++ pend)
        (Printer.nodes { overrides := .corrected } 0 true root.semicolon (root.nodes.map r.node) ++
          Printer.emit .root (r.tail done pend)) ∧
      (r.doubledFront root ≠ [] → ['\\', '\n'] <:+ texts done) := by
  obtain ⟨done, pend, htokens, hafter, hstray, hprinted⟩ :=
    spells_of_parse (Rendering.relocated_indents hlines) h
  have hform : ∀ k ∈ done ++ pend, k.HasForm := fun k hk => Token.hasForm_of_mem htokens hk
  obtain rfl := Token.texts_of_tokenize htokens
  have hoffset : r.lines.size - Text.byteSize (texts pend) = Text.byteSize (texts done) := by
    rw [hlines]
    simp [LineMap.ofText]
  have hpend : r.reindent (texts pend) (Text.byteSize (texts done)) .trailing = _ :=
    r.reindent_eq (s := []) (by simpa using hlines) .trailing (fun _ => by simpa using htrail)
  have hroot := root_corrected r root hafter
  have hne : ∀ k ∈ pend, k.text ≠ [] := fun k hk => (hform k (by simp [hk])).ne_nil
  have hdoubled := doubledFront_eq hlines hafter
  rw [hoffset, hpend] at hroot
  rcases hprinted with ⟨rfl, hnodes⟩ | ⟨hsolid, hspells⟩
  · rw [if_neg (by simp)] at hdoubled
    refine ⟨[], pend, htokens, hstray, ?_, ?_, fun hd => absurd hdoubled hd⟩
    · rw [hroot, hdoubled, tail, hnodes]
      simp [Printer.nodes, Text.AtLineStart, lineAfter]
    · rw [hnodes]
      exact spells_emit hne rfl
  · have hnil := hsolid.ne_nil
    have hdone : texts done ≠ [] := by
      obtain ⟨us, u, rfl, -⟩ := hsolid
      simp [(hform u (by simp)).ne_nil]
    refine ⟨done, pend, htokens, hstray, ?_, hspells.append (spells_emit hne ?_), fun hd => ?_⟩
    · rw [hroot, hdoubled, tail, if_neg hnil]
      simp [hdone, lineAfter]
    · rw [tail, if_neg hnil, List.nil_append, List.nil_append, List.nil_append]
    · rw [hdoubled] at hd
      have hline : Text.AtLineStart (texts done) := by
        by_contra hline
        simp [hline] at hd
      exact hsolid.escapesBreak (fun k hk => hform k (by simp [hk])) (hline.resolve_left hdone)

/-! ### Recovery -/

/-- What a relocation takes over from the block that it was made for. -/
theorem of_ofTemplate? {tpl : Template.Tagged} {normalized : Text} {config : BlockConfig}
    (h : ofTemplate? tpl normalized config = some r) :
    r.config = config ∧ r.lines = LineMap.ofText normalized := by
  obtain ⟨first, -, h⟩ := Option.bind_eq_some_iff.1 h
  cases h
  exact ⟨rfl, rfl⟩

/-- The fragments of a relocated style sheet are those of its nodes and the one of its end. Without
the doubled front, they are the text its text was made of, the dropped line apart. -/
theorem exists_nodes_of_root {text : Text} {base : Nat}
    (hindent : r.config.indentations = (Normalized.ofText text base).indentations)
    (hlines : r.lines = LineMap.ofText (Normalized.ofText text base).text)
    (h : Sheet.parse g (Normalized.ofText text base).text = .ok root) :
    ∃ nodes after,
      Text.dropBytes (Normalized.ofText text base).dropped.bytes text =
        Fragment.texts nodes ++ after ∧
      Printer.root { overrides := .corrected } (r.root root) =
        nodes ++ Printer.emit .root (r.doubledFront root ++ after) := by
  have htrail := Normalized.trailing_eq_front text base
  rw [← hindent] at htrail
  obtain ⟨done, pend, htokens, -, hroot, hspells, -⟩ := spells_root hlines htrail h
  have htexts := Token.texts_of_tokenize htokens
  obtain ⟨d, htext, hsize, -, -⟩ := Normalized.ofText_spec text base
  have hfragments := hspells.texts_eq
  rw [Fragment.texts_append, Fragment.texts_emit, htexts, hindent] at hfragments
  refine ⟨_, r.tail done pend, ?_, hroot⟩
  rw [hfragments, ← hsize]
  conv => lhs; rw [htext]
  rw [Text.dropBytes_append]
  rfl

/-- What a relocated style sheet is printed as: the text its text was made of, the dropped line
apart, with the doubled front where the end of the style sheet starts. -/
theorem texts_root {text : Text} {base : Nat}
    (hindent : r.config.indentations = (Normalized.ofText text base).indentations)
    (hlines : r.lines = LineMap.ofText (Normalized.ofText text base).text)
    (h : Sheet.parse g (Normalized.ofText text base).text = .ok root) :
    ∃ nodes after,
      Text.dropBytes (Normalized.ofText text base).dropped.bytes text = nodes ++ after ∧
      Fragment.texts (Printer.root { overrides := .corrected } (r.root root)) =
        nodes ++ (r.doubledFront root ++ after) := by
  obtain ⟨nodes, after, hdrop, hroot⟩ := exists_nodes_of_root hindent hlines h
  exact ⟨_, after, hdrop, by rw [hroot, Fragment.texts_append, Fragment.texts_emit]⟩

/-- **Indentation recovery**: a relocated style sheet is printed as the text it was made of, its
dropped line apart, just if no front is doubled at its end. -/
theorem texts_root_eq_iff {text : Text} {base : Nat} {d : Dialect} {origin : Option Text}
    {tpl : Template.Tagged} {config : BlockConfig}
    (hindent : config.indentations = (Normalized.ofText text base).indentations)
    (hr : ofTemplate? tpl (Normalized.ofText text base).text config = some r)
    (h : d.parse origin (Normalized.ofText text base).text = .ok root) :
    Fragment.texts (Printer.root { overrides := .corrected } (r.root root)) =
        Text.dropBytes (Normalized.ofText text base).dropped.bytes text ↔
      r.doubledFront root = [] := by
  obtain ⟨sheet, hsheet, rfl⟩ := d.parse_eq_ok h
  obtain ⟨hconfig, hlines⟩ := of_ofTemplate? hr
  obtain ⟨nodes, after, hdrop, hprint⟩ := texts_root (hconfig ▸ hindent) hlines hsheet
  have hsame : Printer.root { overrides := .corrected } (r.root { sheet with origin := origin }) =
      Printer.root { overrides := .corrected } (r.root sheet) := rfl
  have hdoubled : r.doubledFront { sheet with origin := origin } = r.doubledFront sheet := rfl
  rw [hsame, hdoubled, hprint, hdrop]
  constructor
  · intro heq
    have hlen := congrArg List.length heq
    simp only [List.length_append] at hlen
    exact List.eq_nil_of_length_eq_zero (by omega)
  · intro hnil
    rw [hnil, List.nil_append]

/-- Behind a value that ends in an escaped line feed, the indentation of the last line is printed
twice. -/
theorem texts_root_ne_of_escapedBreak :
    let text : Text := "\n  a: b\\\n  ".toList
    let n := Normalized.ofText text 2
    let quasi : Template.Quasi := ⟨⟨4, 16⟩, ⟨1, 5⟩, ⟨3, 3⟩, text⟩
    ∃ r root, ofTemplate? ⟨.identifier "css".toList, ⟨0, 17⟩, [quasi], [], []⟩ n.text
        { hostEdges := { front := n.dropped }, indentations := n.indentations } = some r ∧
      Dialect.css.parse none n.text = .ok root ∧ r.doubledFront root = [' ', ' '] ∧
      Fragment.texts (Printer.root { overrides := .corrected } (r.root root)) ≠
        Text.dropBytes n.dropped.bytes text := by
  intro text n quasi
  have hrun : ((ofTemplate? ⟨.identifier "css".toList, ⟨0, 17⟩, [quasi], [], []⟩ n.text
      { hostEdges := { front := n.dropped }, indentations := n.indentations }).bind fun r =>
        (Dialect.css.parse none n.text).toOption.map r.doubledFront) = some [' ', ' '] := by
    decide +kernel
  obtain ⟨r, hr, hmap⟩ := Option.bind_eq_some_iff.1 hrun
  obtain ⟨root, hroot, hdoubled⟩ := Option.map_eq_some_iff.1 hmap
  have h : Dialect.css.parse none n.text = .ok root := by
    cases hp : Dialect.css.parse none n.text with
    | error e => simp [hp, Except.toOption] at hroot
    | ok sheet => simpa [hp, Except.toOption] using hroot
  refine ⟨r, root, hr, h, hdoubled, fun heq => ?_⟩
  rw [(texts_root_eq_iff rfl hr h).1 heq] at hdoubled
  contradiction

end Relocation

end StyleBlocks
