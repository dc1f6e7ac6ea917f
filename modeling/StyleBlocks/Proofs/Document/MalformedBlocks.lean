import StyleBlocks.Proofs.Document.Fates

/-!
# Malformed style text is left alone

A template whose style text is malformed is set aside, and that is all that happens to it. It moves no
cursor and adds no block, so what lies between its backticks is host text like any other: templates in
its holes become blocks on their own, and its text goes with the block after it. A document thus has
the blocks that it has without the malformed templates.

## Main results

* `Assembly.foldl_add_filter`: malformed templates leave the blocks and the cursor alone.
* `Assembly.blocks_of_accepted`: the blocks of a document are those of its well-formed templates, and
  every template becomes a block or is set aside.
-/

namespace StyleBlocks

open Sheet Template

namespace Template.Tagged

/-- Whether a template has a content. -/
def hasContent (t : Tagged) : Bool :=
  t.contentSpan?.isSome

/-- A template has content just if its content has a span. -/
theorem hasContent_iff {t : Tagged} : t.hasContent = true ↔ t.contentSpan? = some t.content := by
  rw [hasContent, content]
  cases t.contentSpan? <;> simp

end Template.Tagged

/-- Every template becomes a block or is set aside, and not both. -/
theorem Fate.isSome_block?_iff {t : Tagged} {fate : Fate} (lines : LineMap)
    (h : t.contentSpan? = some t.content) :
    (block? (t, fate)).isSome ↔ ¬ (skipped? lines (t, fate)).isSome := by
  cases fate with
  | ok b => simp
  | error reason => simp [h]

namespace Assembly

variable {a : Assembly} {origin : Option Text} {source : Text} {t : Tagged} {ts : List Tagged}
  {lines : LineMap} {p q : Progress}

/-- Whether the dialect accepts the style text of a template. -/
def accepts (a : Assembly) (origin : Option Text) (source : Text) (t : Tagged) : Bool :=
  (a.dialect.parse origin (styleText source t)).isOk

/-- A template can be read if the dialect accepts its style text. -/
theorem isOk_readBlock : (a.readBlock origin source t).isOk = a.accepts origin source t := by
  rw [accepts, styleText]
  cases hp : a.dialect.parse origin
      (Normalized.ofText (Extraction.ofTemplate t source).text t.base).text with
  | error e =>
      simp only [readBlock, hp, bind, Except.bind]
      rfl
  | ok sheet =>
      simp only [readBlock, hp, bind, Except.bind, pure, Except.pure]
      split <;> rfl

/-! ### The blocks and the cursor -/

/-- Two ways of assembling **agree** if they have the same blocks so far, and the last one ends at the
same place. They may differ in what has been set aside. -/
def Progress.Agree (p q : Progress) : Prop :=
  p.cursor = q.cursor ∧ p.blocks = q.blocks

/-- A template without a content changes nothing. -/
theorem add_of_not_hasContent (h : ¬ t.hasContent = true) :
    a.add origin lines source p t = p := by
  rw [Tagged.hasContent, Option.not_isSome_iff_eq_none] at h
  rw [add, h]

/-- A malformed template leaves the blocks and the cursor alone. -/
theorem agree_add_of_not_accepts (h : ¬ a.accepts origin source t = true) :
    (a.add origin lines source p t).Agree p := by
  rw [← isOk_readBlock] at h
  rw [add]
  split
  · exact ⟨rfl, rfl⟩
  split
  · exact ⟨rfl, rfl⟩
  split
  · exact ⟨rfl, rfl⟩
  · next hread => exact absurd (by rw [hread]; rfl) h

/-- What a template does to the blocks and the cursor depends on these alone. -/
theorem agree_add (h : p.Agree q) :
    (a.add origin lines source p t).Agree (a.add origin lines source q t) := by
  obtain ⟨hcursor, hblocks⟩ := h
  rw [add, add, hcursor]
  split
  · exact ⟨hcursor, hblocks⟩
  split
  · exact ⟨hcursor, hblocks⟩
  split
  · exact ⟨hcursor, hblocks⟩
  · exact ⟨rfl, by rw [hblocks]⟩

/-- **Malformed templates leave the blocks and the cursor alone**, wherever they stand. -/
theorem foldl_add_filter (h : p.Agree q) :
    (ts.foldl (a.add origin lines source) p).Agree
      ((ts.filter (a.accepts origin source)).foldl (a.add origin lines source) q) := by
  induction ts generalizing p q with
  | nil => exact h
  | cons t ts ih =>
      rw [List.foldl_cons]
      by_cases ht : a.accepts origin source t = true
      · rw [List.filter_cons_of_pos ht, List.foldl_cons]
        exact ih (agree_add h)
      · rw [List.filter_cons_of_neg ht]
        obtain ⟨hcursor, hblocks⟩ := @agree_add_of_not_accepts a origin source t lines p ht
        exact ih ⟨hcursor.trans h.1, hblocks.trans h.2⟩

/-- Templates without a content do not matter. -/
theorem foldl_add_filter_hasContent :
    (ts.filter Tagged.hasContent).foldl (a.add origin lines source) p =
      ts.foldl (a.add origin lines source) p := by
  induction ts generalizing p with
  | nil => rfl
  | cons t ts ih =>
      by_cases ht : t.hasContent = true
      · rw [List.filter_cons_of_pos ht, List.foldl_cons, List.foldl_cons, ih]
      · rw [List.filter_cons_of_neg ht, List.foldl_cons, add_of_not_hasContent ht, ih]

/-! ### Documents -/

/-- The blocks of a document do not change if the malformed templates are taken out. -/
theorem blocks_documentOf_filter :
    (a.documentOf origin source (ts.filter (a.accepts origin source))).blocks =
      (a.documentOf origin source ts).blocks := by
  have hcomm : (ts.filter (a.accepts origin source)).filter a.selects =
      (ts.filter a.selects).filter (a.accepts origin source) := by
    rw [List.filter_filter, List.filter_filter]
    exact List.filter_congr fun t _ => Bool.and_comm _ _
  obtain ⟨hcursor, hblocks⟩ := @foldl_add_filter a origin source (ts.filter a.selects)
    (LineMap.ofText source) {} {} ⟨rfl, rfl⟩
  rw [documentOf, documentOf, hcomm, hcursor, hblocks]

/-- All templates of a host file have a content. -/
theorem filter_hasContent_of_findTemplates (hts : findTemplates source = .ok ts) :
    (ts.filter a.selects).filter Tagged.hasContent = ts.filter a.selects := by
  obtain ⟨hproper, -⟩ := pairwise_of_findTemplates hts
  rw [List.filter_eq_self]
  intro t ht
  exact Tagged.hasContent_iff.2 (hproper t (List.mem_of_mem_filter ht)).contentSpan?_eq

/-- **Malformed style text affects nothing but its own template.** Whatever templates a host file is
said to have, its document has the blocks that it has when the templates whose style text the dialect
rejects are taken out: the same style sheets and configurations in the same places, with the same host
text in front of them and behind the last one. And of the templates that hold style text and have a
content, as all templates found in a host file have, each becomes a block or is set aside, once and in
order. -/
theorem blocks_of_accepted (hts : a.templates source = .ok ts) :
    ∃ (doc : Document) (fates : List (Tagged × Fate)), a.parse origin source = .ok doc ∧
      (({ a with templates := fun _ => .ok (ts.filter (a.accepts origin source)) } : Assembly).parse
        origin source).map Document.blocks = .ok doc.blocks ∧
      fates.map Prod.fst = (ts.filter a.selects).filter Tagged.hasContent ∧
      doc.blocks.map (fun b => (b.root, b.config)) = fates.filterMap Fate.block? ∧
      doc.skipped = fates.filterMap (Fate.skipped? (LineMap.ofText source)) ∧
      (∀ t fate, (t, fate) ∈ fates →
        ((Fate.block? (t, fate)).isSome ↔
          ¬ (Fate.skipped? (LineMap.ofText source) (t, fate)).isSome) ∧
        (∀ b, fate = .ok b → a.readBlock origin source t = .ok b) ∧
        ∀ e, fate = .error (.malformed e) →
          a.dialect.parse origin (styleText source t) = .error e) ∧
      (a.templates = findTemplates →
        (ts.filter a.selects).filter Tagged.hasContent = ts.filter a.selects) := by
  have hparse : a.parse origin source = .ok (a.documentOf origin source ts) := by
    rw [parse, hts]
    rfl
  have hcontent : ∀ t ∈ (ts.filter a.selects).filter Tagged.hasContent,
      t.contentSpan? = some t.content := fun t ht => Tagged.hasContent_iff.1 (List.mem_filter.1 ht).2
  obtain ⟨hblocks, hskipped⟩ :=
    @foldl_add_of_content a origin source _ hcontent (LineMap.ofText source) {}
  rw [foldl_add_filter_hasContent] at hblocks hskipped
  refine ⟨_, a.fatesFrom origin source 0 ((ts.filter a.selects).filter Tagged.hasContent), hparse,
    congrArg Except.ok blocks_documentOf_filter, map_fst_fatesFrom, ?_, hskipped, ?_, ?_⟩
  · rw [documentOf, map_closeBlocks]
    exact hblocks
  · intro t fate hfate
    obtain ⟨hok, hmalformed⟩ := readBlock_of_mem_fatesFrom hfate
    have ht := hcontent t (mem_of_mem_fatesFrom hfate)
    exact ⟨Fate.isSome_block?_iff _ ht, hok, fun e he => parse_eq_error_of_readBlock (hmalformed e he)⟩
  · intro ha
    rw [ha] at hts
    exact filter_hasContent_of_findTemplates hts

/-- A template in the hole of a malformed one becomes a block on its own, and the text around it is host
text. -/
theorem blocks_of_accepted_inHole :
    let source : Text := "css\x60\x7d $\x7bcss\x60c: d;\x60\x7d\x60;".toList
    let a : Assembly := { dialect := .css, matcher := {}, directive := [] }
    let r : Tagged :=
      { tag := .identifier "css".toList, span := ⟨0, 20⟩
        quasis := [⟨⟨4, 6⟩, ⟨1, 5⟩, ⟨1, 7⟩, "\x7d ".toList⟩, ⟨⟨19, 19⟩, ⟨1, 20⟩, ⟨1, 20⟩, []⟩]
        holes := [⟨⟨8, 18⟩, ⟨1, 9⟩⟩], leadingComments := [] }
    let t : Tagged :=
      { tag := .identifier "css".toList, span := ⟨8, 18⟩
        quasis := [⟨⟨12, 17⟩, ⟨1, 13⟩, ⟨1, 18⟩, "c: d;".toList⟩], holes := []
        leadingComments := [] }
    findTemplates source = .ok [r, t] ∧ ∃ doc : Document, a.parse none source = .ok doc ∧
      (({ a with templates := fun _ => .ok [t] } : Assembly).parse none source).map Document.blocks =
        .ok doc.blocks ∧
      doc.blocks.map (fun b => (b.leading, b.trailing)) =
        [("css\x60\x7d $\x7bcss\x60".toList, some "\x60\x7d\x60;".toList)] ∧
      doc.skipped.map (fun s => (s.range.start, s.range.stop)) = [(⟨1, 5⟩, ⟨1, 20⟩)] := by
  intro source a r t
  -- the inner template is closed first
  have hclosed : (readToEnd (LineMap.ofText source) {} 0 source).map Nesting.closed = .ok [t, r] := by
    decide +kernel
  have hts : findTemplates source = .ok [r, t] := by
    cases hn : readToEnd (LineMap.ofText source) {} 0 source with
    | error e => simp [hn, Except.map] at hclosed
    | ok n =>
        have hcl : n.closed = [t, r] := by simpa [hn, Except.map] using hclosed
        refine findTemplates_eq_ok_iff.2 ⟨n, hn, ?_⟩
        rw [hcl, List.mergeSort]
        simp [List.MergeSort.Internal.splitInTwo, r, t]
  have haccepts : [r, t].filter (a.accepts none source) = [t] := by
    decide +kernel
  obtain ⟨doc, fates, hdoc, hblocks, -⟩ := @blocks_of_accepted a none source [r, t] hts
  rw [haccepts] at hblocks
  obtain rfl := Except.ok.inj (hdoc.symm.trans (congrArg (Except.map _) hts))
  refine ⟨hts, _, hdoc, hblocks, ?_, ?_⟩ <;> decide +kernel

end Assembly

end StyleBlocks
