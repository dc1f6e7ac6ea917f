import StyleBlocks.Proofs.Sheet.Spelling
import StyleBlocks.Proofs.Sheet.StatementForm

/-!
# Statements are printed as they were read

The fragments of a statement, under any rendering that indents the text it was read from, spell the
tokens the statement was read from, the blanks in front of it among them.

## Main results

* `Rendering.Indents.spells_whole`: a node without a block, with the semicolon behind it.
* `Rendering.Indents.spells_opening`: the head of a block, with its brace.
-/

namespace StyleBlocks.Sheet

open Token (texts)

namespace Rendering.Indents

variable {R : Rendering} {front : Nat → Text} {all done ts : List Token}
  (hR : R.Indents front (texts all)) (hform : ∀ k ∈ all, k.HasForm)
include hR hform

/-- A text written where its tokens stand spells them. -/
theorem spells_emit (hall : done ++ ts <+: all) {offset : Nat}
    (ho : offset = Text.byteSize (texts done)) (o : Owner) :
    Spells front [] done ts (Printer.emit o (R.write .inner offset (texts ts))) := by
  obtain ⟨rest, rfl⟩ := hall
  exact StyleBlocks.Sheet.spells_emit
    (fun k hk => (hform k (List.mem_append_left rest (List.mem_append_right done hk))).ne_nil)
    (by rw [hR.write_tokens ho, List.nil_append])

/-- What stands in front of a node spells its tokens, with the front of the line if one begins
there. -/
theorem spells_before (hall : done ++ ts <+: all) {offset : Nat}
    (ho : offset = Text.byteSize (texts done)) (o : Owner) :
    Spells front (leadAfter front done) done ts
      (Printer.emit o (R.write .lineStart offset (texts ts))) := by
  obtain ⟨rest, rfl⟩ := hall
  exact StyleBlocks.Sheet.spells_emit
    (fun k hk => (hform k (List.mem_append_left rest (List.mem_append_right done hk))).ne_nil)
    (hR.write_tokens_lineStart ho)

omit hform in
/-- A text that marks a boundary spells its tokens. -/
theorem spells_mark (hall : done ++ ts <+: all) {offset : Nat}
    (ho : offset = Text.byteSize (texts done)) (o : Owner) (b : Boundary) :
    Spells front [] done ts [Printer.mark o b (R.write .inner offset (texts ts))] := by
  obtain ⟨rest, rfl⟩ := hall
  exact .single (by rw [Printer.mark, hR.write_tokens ho, List.nil_append])

/-- A text with an opening brace behind it spells its tokens and the brace. -/
theorem spells_brace {u : Token} (hu : u.text = ['{']) (hall : done ++ (ts ++ [u]) <+: all)
    {offset : Nat} (ho : offset = Text.byteSize (texts done)) (o : Owner) :
    Spells front [] done (ts ++ [u])
      (Printer.emit o (R.write .inner offset (texts ts) ++ ['{'])) := by
  obtain ⟨rest, rfl⟩ := hall
  refine StyleBlocks.Sheet.spells_emit
    (fun k hk => (hform k (List.mem_append_left rest (List.mem_append_right done hk))).ne_nil) ?_
  have hR : R.Indents front (texts (done ++ ts ++ (u :: rest))) := by simpa using hR
  rw [hR.write_tokens ho, Token.texts_append, Text.indentFrom_append, Token.texts_cons, hu]
  simp [Text.indentFrom]

end Rendering.Indents

/-- A token of one character that is no line feed is spelled by this character. -/
theorem spells_char {front : Nat → Text} {done : List Token} {u : Token} {c : Char} (hc : c ≠ '\n')
    (hu : u.text = [c]) (o : Owner) : Spells front [] done [u] (Printer.emit o [c]) :=
  spells_emit (by simp [hu]) (by simp [hu, Text.indentFrom_cons_of_ne hc])

/-- The name of an at-rule is spelled with its at sign. -/
theorem spells_name {front : Nat → Text} {done : List Token} {t : Token} {name : Text}
    (ht : t.text = '@' :: name) (hn : '\n' ∉ name) :
    Spells front [] done [t] [Printer.mark .atRule .start ('@' :: name)] := by
  refine .single ?_
  have hline : '\n' ∉ '@' :: name := by simp [hn]
  simp [Printer.mark, ht, Text.indentFrom_of_notMem hline]

/-- Behind a token that ends in another character than a line feed no line begins. -/
theorem not_atLineStart_texts {done : List Token} {u : Token} {s : Text} {c : Char}
    (hu : u.text = s ++ [c]) (hc : c ≠ '\n') : ¬ Text.AtLineStart (texts (done ++ [u])) := by
  have := Text.not_atLineStart_append (t := u.text) (by simp [hu]) (by simpa [hu] using hc)
    (texts done)
  simpa using this

/-- Behind a token on one line no line begins. -/
theorem not_atLineStart_of_notMem (done : List Token) {u : Token} (hne : u.text ≠ [])
    (hn : '\n' ∉ u.text) : ¬ Text.AtLineStart (texts (done ++ [u])) := by
  obtain ⟨s, c, hu⟩ := (List.eq_nil_or_concat _).resolve_left hne
  rw [List.concat_eq_append] at hu
  refine not_atLineStart_texts hu ?_
  rintro rfl
  exact hn (by simp [hu])

/-! ### Nodes without a block -/

section

variable {R : Rendering} {front : Nat → Text} {all done pend : List Token} {lines : LineMap}
  (hR : R.Indents front (texts all)) (hform : ∀ k ∈ all, k.HasForm)
include hR hform

/-- The fragments of a declaration spell its tokens and those in front of it. -/
theorem Rendering.Indents.spells_declaration {prop gap value after : List Token} {a : Range}
    (hall : done ++ pend ++ prop ++ gap ++ value ++ after <+: all)
    (ha : a.span.start = Text.byteSize (texts (done ++ pend))) (depth : Nat) (first : Bool) :
    Spells front (leadAfter front done) done (pend ++ (prop ++ (gap ++ value ++ after)))
      (R.printer.node depth first (R.move (.declaration
        { prop := texts prop, value := texts value, before := some (texts pend),
          between := some (texts gap), after := some (texts after), source := some a }))) := by
  rw [R.node_declaration]
  obtain ⟨rest, rfl⟩ := hall
  refine (hR.spells_before hform (by simp) (by simp [ha]) _).append
    ((hR.spells_mark (by simp) ha _ _).cons ?_)
  refine ((hR.spells_emit hform (by simp) ?_ _).append (hR.spells_emit hform ?_ ?_ _)).append
    (hR.spells_emit hform (by simp) ?_ _)
  all_goals simp [ha, Nat.add_assoc]

/-- The fragments of a mixin spell its tokens and those in front of it. -/
theorem Rendering.Indents.spells_mixin {core back : List Token} {a : Range}
    (hall : done ++ pend ++ core ++ back <+: all)
    (ha : a.span.start = Text.byteSize (texts (done ++ pend))) (depth : Nat) (first : Bool) :
    Spells front (leadAfter front done) done (pend ++ core ++ back)
      (R.printer.node depth first (R.move (.rule
        { selector := texts core, mixin := true, before := some (texts pend),
          between := some (texts back), source := some a } []))) := by
  rw [R.node_mixin]
  obtain ⟨rest, rfl⟩ := hall
  refine ((hR.spells_before hform (by simp) (by simp [ha]) _).append
    (hR.spells_mark ?_ ha _ _)).append (hR.spells_emit hform (by simp) ?_ _)
  all_goals simp [ha, Nat.add_assoc]

/-- The fragments of an at-rule without a block spell its tokens and those in front of it. -/
theorem Rendering.Indents.spells_atStatement {t : Token} {gap core back : List Token} {name : Text}
    {a : Range} (ht : t.text = '@' :: name) (hn : '\n' ∉ name)
    (hall : done ++ pend ++ [t] ++ gap ++ core ++ back <+: all)
    (ha : a.span.start = Text.byteSize (texts (done ++ pend))) (depth : Nat) (first : Bool) :
    Spells front (leadAfter front done) done (pend ++ ([t] ++ (gap ++ core)) ++ back)
      (R.printer.node depth first (R.move (.atStatement
        { name := name, params := texts core, before := some (texts pend),
          afterName := some (texts gap), between := some (texts back), source := some a }))) := by
  rw [R.node_atStatement]
  obtain ⟨rest, rfl⟩ := hall
  refine ((hR.spells_before hform (by simp) (by simp [ha]) _).append
    ((spells_name ht hn).cons ((hR.spells_emit hform ?_ ?_ _).append
      (hR.spells_emit hform ?_ ?_ _)))).append (hR.spells_emit hform (by simp) ?_ _)
  all_goals simp [ha, ht, Nat.add_assoc]

omit hform in
/-- A comment written between its marks is its indented text. -/
theorem Rendering.Indents.write_comment {t : Token} (opening : Text) {inner : Text}
    (closing : Text) {start : Nat} (ht : t.text = opening ++ inner ++ closing)
    (ho : '\n' ∉ opening) (hc : '\n' ∉ closing)
    (hsize : Text.byteSize opening = 2) (hall : done ++ [t] <+: all)
    (ha : start = Text.byteSize (texts done)) :
    opening ++ R.write .inner (start + 2) inner ++ closing =
      Text.indentFrom front (lineAfter done) (texts [t]) := by
  obtain ⟨rest, rfl⟩ := hall
  have hoffset : start + 2 = Text.byteSize (texts done ++ opening) := by simp [ha, hsize]
  have hline : (texts done ++ opening).breaks + 1 = lineAfter done := by
    simp [lineAfter, Text.breaks_eq_zero ho]
  rw [hoffset, hR.write_inner (t := inner) (s := closing ++ texts rest) (by simp [ht]), hline]
  simp [ht, Text.indentFrom_append, Text.indentFrom_of_notMem ho, Text.indentFrom_of_notMem hc,
    Text.breaks_eq_zero ho]

/-- The fragment of a comment spells its token and those in front of it. -/
theorem Rendering.Indents.spells_comment {t : Token} {inner : Text} {a : Range}
    (ht : t.text = '/' :: '*' :: (inner ++ ['*', '/'])) (hall : done ++ pend ++ [t] <+: all)
    (ha : a.span.start = Text.byteSize (texts (done ++ pend))) (depth : Nat) (first : Bool) :
    Spells front (leadAfter front done) done (pend ++ [t])
      (R.printer.node depth first (R.move (.comment
        { text := inner, before := some (texts pend), source := some a }))) := by
  have hwrite := hR.write_comment ['/', '*'] ['*', '/'] (by simpa using ht)
    (by decide) (by decide) rfl hall ha
  rw [R.node_comment]
  obtain ⟨rest, rfl⟩ := hall
  refine (hR.spells_before hform (by simp) (by simp [ha]) _).append ?_
  exact StyleBlocks.Sheet.spells_emit (by simp [ht]) hwrite

/-- The fragment of a comment to the end of its line spells its token and those in front of it. -/
theorem Rendering.Indents.spells_inlineComment {t : Token} {inner : Text} {a : Range}
    (ht : t.text = '/' :: '/' :: inner) (hall : done ++ pend ++ [t] <+: all)
    (ha : a.span.start = Text.byteSize (texts (done ++ pend))) (depth : Nat) (first : Bool) :
    Spells front (leadAfter front done) done (pend ++ [t])
      (R.printer.node depth first (R.move (.comment
        { text := inner, inline := true, before := some (texts pend), source := some a }))) := by
  have hwrite := hR.write_comment ['/', '/'] [] (by simpa using ht)
    (by decide) (by decide) rfl hall ha
  rw [List.append_nil] at hwrite
  rw [R.node_comment]
  obtain ⟨rest, rfl⟩ := hall
  refine (hR.spells_before hform (by simp) (by simp [ha]) _).append ?_
  exact StyleBlocks.Sheet.spells_emit (by simp [ht]) hwrite

/-! ### Heads of blocks -/

/-- The fragments of the head of a rule spell its tokens, the brace, and those in front of it. -/
theorem Rendering.Indents.spells_rule {u : Token} {core back : List Token} {start : Nat}
    (hu : u.text = ['{']) (hall : done ++ pend ++ core ++ back ++ [u] <+: all)
    (ha : start = Text.byteSize (texts (done ++ pend))) :
    Spells front (leadAfter front done) done (pend ++ core ++ (back ++ [u]))
      (Head.fragments R.write start (.rule
        { selector := texts core, before := some (texts pend)
          between := some (texts back) })) := by
  obtain ⟨rest, rfl⟩ := hall
  refine ((hR.spells_before hform (by simp) ?_ _).append
    (hR.spells_mark ?_ ha _ _)).append (hR.spells_brace hform hu (by simp) ?_ _)
  all_goals simp [ha, Nat.add_assoc]

/-- The fragments of the head of an at-rule spell its tokens, the brace, and those in front of
it. -/
theorem Rendering.Indents.spells_atRule {t u : Token} {gap core back : List Token} {name : Text}
    {start : Nat} (ht : t.text = '@' :: name) (hn : '\n' ∉ name) (hu : u.text = ['{'])
    (hall : done ++ pend ++ [t] ++ gap ++ core ++ back ++ [u] <+: all)
    (ha : start = Text.byteSize (texts (done ++ pend))) :
    Spells front (leadAfter front done) done (pend ++ ([t] ++ (gap ++ core)) ++ (back ++ [u]))
      (Head.fragments R.write start (.atRule
        { name := name, params := texts core, before := some (texts pend),
          afterName := some (texts gap), between := some (texts back) })) := by
  obtain ⟨rest, rfl⟩ := hall
  refine ((hR.spells_before hform (by simp) ?_ _).append
    ((spells_name ht hn).cons ((hR.spells_emit hform ?_ ?_ _).append
      (hR.spells_emit hform ?_ ?_ _)))).append (hR.spells_brace hform hu (by simp) ?_ _)
  all_goals simp [ha, ht, Nat.add_assoc]

/-! ### Statements -/

/-- A node that was just read and is not followed by its own semicolon is the last of its block, or
does not need one. -/
def Closed (n : Node) (terminated : Bool) (done rest : List Token) : Prop :=
  ((n.needsSemicolon = true → terminated = true) ∧ ¬ Text.AtLineStart (texts done)) ∨
    AtBlockEnd rest

/-- **A node without a block**, with the semicolon behind it, spells the tokens it was read from. -/
theorem Rendering.Indents.spells_whole {t : Token} {ts rest : List Token} {n : Node}
    {terminated : Bool}
    (h : Reads lines (texts pend) (t :: ts) ⟨.whole n terminated, rest⟩)
    (hall : done ++ pend ++ t :: ts = all) (htiled : Token.Tiled 0 all) :
    ∃ used, t :: ts = used ++ rest ∧ Token.EndsSolid used ∧
      Closed n terminated (done ++ pend ++ used) rest ∧
      ∀ depth first, Spells front (leadAfter front done) done (pend ++ used)
        (R.printer.node depth first (R.move n) ++
          if n.needsSemicolon && terminated then Printer.emit n.owner [';'] else []) := by
  have ha : t.start = Text.byteSize (texts (done ++ pend)) := by
    rw [← hall, Token.tiled_append] at htiled
    simpa using htiled.2.1
  have hmem : ∀ k ∈ t :: ts, k.HasForm :=
    fun k hk => hform k (by rw [← hall]; simp [List.mem_cons.1 hk])
  cases h with
  | @comment _ _ inner hk ht =>
      refine ⟨[t], rfl, ⟨[], t, rfl, by simp [Token.isSpace, hk]⟩,
        Or.inl ⟨by simp [Node.needsSemicolon], ?_⟩, fun depth first => ?_⟩
      · exact not_atLineStart_texts (s := '/' :: '*' :: (inner ++ ['*'])) (c := '/') (by simp [ht])
          (by decide)
      · have := hR.spells_comment hform ht (a := lines.range t.span) (by simp [← hall]) ha depth
          first
        simpa [Node.needsSemicolon] using this
  | inlineComment hk ht hn =>
      refine ⟨[t], rfl, ⟨[], t, rfl, by simp [Token.isSpace, hk]⟩,
        Or.inl ⟨by simp [Node.needsSemicolon], ?_⟩, fun depth first => ?_⟩
      · exact not_atLineStart_of_notMem _ (by simp [ht]) (by simp [ht, hn])
      · have := hR.spells_inlineComment hform ht (a := lines.range t.span) (by simp [← hall]) ha
          depth first
        simpa [Node.needsSemicolon] using this
  | @atStatement _ u _ gap core back _ name ht hn hts hu =>
      subst hts
      have htext := (hmem u (by simp)).text_semicolon hu
      refine ⟨t :: (gap ++ core ++ back ++ [u]), by simp,
        .of_ending hu (by decide) (t :: (gap ++ core ++ back)),
        Or.inl ⟨fun _ => rfl, ?_⟩, fun depth first => ?_⟩
      · have := not_atLineStart_of_notMem (done ++ pend ++ t :: (gap ++ core ++ back)) (u := u)
          (by simp [htext]) (by simp [htext])
        simpa using this
      · have hread : done ++ pend ++ [t] ++ gap ++ core ++ back <+: all := by simp [← hall]
        have := (hR.spells_atStatement hform ht hn hread (a := lines.range ⟨t.start, u.stop⟩) ha
          depth first).append (spells_char (by decide) htext .atRule)
        simpa [Node.needsSemicolon, Node.owner] using this
  | @openAtStatement _ _ gap core back _ name stop ht hn hts hlast hstop hback hrest =>
      subst hts
      refine ⟨t :: (gap ++ core), by simp, hlast, Or.inr (hrest.append hback),
        fun depth first => ?_⟩
      have hread : done ++ pend ++ [t] ++ gap ++ core ++ [] <+: all := by simp [← hall]
      have := hR.spells_atStatement hform ht hn hread
        (a := lines.range ⟨t.start, stop⟩) ha depth first
      simpa [Node.needsSemicolon] using this
  | @mixin _ u _ core back _ hts hu =>
      have htext := (hmem u (by simp [hts])).text_semicolon hu
      rw [hts] at hall
      refine ⟨core ++ back ++ [u], by simp [hts], .of_ending hu (by decide) _,
        Or.inl ⟨fun _ => rfl, ?_⟩, fun depth first => ?_⟩
      · have := not_atLineStart_of_notMem (done ++ pend ++ (core ++ back)) (u := u)
          (by simp [htext]) (by simp [htext])
        simpa using this
      · have hread : done ++ pend ++ core ++ back <+: all := by simp [← hall]
        have := (hR.spells_mixin hform hread (a := lines.range ⟨t.start, u.stop⟩) ha depth
          first).append (spells_char (by decide) htext .rule)
        simpa [Node.needsSemicolon, Node.owner] using this
  | @declaration _ u _ prop gap value after _ hts hu =>
      have htext := (hmem u (by simp [hts])).text_semicolon hu
      rw [hts] at hall
      refine ⟨prop ++ gap ++ value ++ after ++ [u], by simp [hts], .of_ending hu (by decide) _,
        Or.inl ⟨fun _ => rfl, ?_⟩, fun depth first => ?_⟩
      · have := not_atLineStart_of_notMem (done ++ pend ++ (prop ++ gap ++ value ++ after))
          (u := u) (by simp [htext]) (by simp [htext])
        simpa using this
      · have hread : done ++ pend ++ prop ++ gap ++ value ++ after <+: all := by simp [← hall]
        have := (hR.spells_declaration hform hread (a := lines.range ⟨t.start, u.stop⟩) ha depth
          first).append (spells_char (by decide) htext .declaration)
        simpa [Node.needsSemicolon, Node.owner] using this
  | @openDeclaration _ _ prop gap value back _ stop hts hlast hstop hback hrest =>
      rw [hts] at hall
      refine ⟨prop ++ gap ++ value, by simp [hts], hlast, Or.inr (hrest.append hback),
        fun depth first => ?_⟩
      have hread : done ++ pend ++ prop ++ gap ++ value ++ [] <+: all := by simp [← hall]
      have := hR.spells_declaration hform hread (a := lines.range ⟨t.start, stop⟩) ha depth first
      simpa [Node.needsSemicolon] using this

/-- **The head of a block**, with its brace, spells the tokens it was read from. -/
theorem Rendering.Indents.spells_opening {t : Token} {ts rest : List Token} {head : Head}
    {start brace : Nat}
    (h : Reads lines (texts pend) (t :: ts) ⟨.opening head start brace, rest⟩)
    (hall : done ++ pend ++ t :: ts = all) (htiled : Token.Tiled 0 all) :
    ∃ used, t :: ts = used ++ rest ∧ Token.EndsSolid used ∧ head.IsComplete ∧
      ¬ Text.AtLineStart (texts (done ++ pend ++ used)) ∧
      Spells front (leadAfter front done) done (pend ++ used) (head.fragments R.write start) := by
  have ha : t.start = Text.byteSize (texts (done ++ pend)) := by
    rw [← hall, Token.tiled_append] at htiled
    simpa using htiled.2.1
  have hmem : ∀ k ∈ t :: ts, k.HasForm :=
    fun k hk => hform k (by rw [← hall]; simp [List.mem_cons.1 hk])
  cases h with
  | @atRule _ u _ gap core back _ name ht hn hts hu =>
      subst hts
      have htext := (hmem u (by simp)).text_openCurly hu
      refine ⟨t :: (gap ++ core ++ back ++ [u]), by simp,
        .of_ending hu (by decide) (t :: (gap ++ core ++ back)),
        ⟨rfl, rfl, rfl⟩, ?_, ?_⟩
      · have := not_atLineStart_of_notMem (done ++ pend ++ t :: (gap ++ core ++ back)) (u := u)
          (by simp [htext]) (by simp [htext])
        simpa using this
      · have hread : done ++ pend ++ [t] ++ gap ++ core ++ back ++ [u] <+: all := by
          simp [← hall]
        have := hR.spells_atRule hform ht hn htext hread ha
        simpa using this
  | @rule _ u _ core back _ hts hu =>
      have htext := (hmem u (by simp [hts])).text_openCurly hu
      rw [hts] at hall
      refine ⟨core ++ back ++ [u], by simp [hts], .of_ending hu (by decide) _, ⟨rfl, rfl, rfl⟩,
        ?_, ?_⟩
      · have := not_atLineStart_of_notMem (done ++ pend ++ (core ++ back)) (u := u)
          (by simp [htext]) (by simp [htext])
        simpa using this
      · have hread : done ++ pend ++ core ++ back ++ [u] <+: all := by simp [← hall]
        have := hR.spells_rule hform htext hread ha
        simpa using this

end

end StyleBlocks.Sheet
