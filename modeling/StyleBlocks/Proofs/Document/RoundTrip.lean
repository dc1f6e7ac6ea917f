import StyleBlocks.Document.Assembly
import StyleBlocks.Proofs.Document.BlockText

/-!
# The document round trip

While a document is assembled, what is printed of the blocks so far is the source up to the cursor.
A template that becomes a block moves the cursor to the end of its content; one that is set aside
leaves blocks and cursor as they are. The host text behind the last block goes with it, so the
document as a whole is printed as its source.

## Main results

* `Assembly.texts_of_readBlock`: a block is printed as what stands in the source.
* `Assembly.Progress.Covers.add`: what is printed of the blocks is the source up to the cursor, and
  stays so.
* `Assembly.render_eq_source`: a document is printed as its source.
-/

namespace StyleBlocks

open Placeholder Sheet Template

/-- Of two texts that a text starts with, the shorter one starts the other. -/
theorem Text.exists_eq_append {p q r s : Text} (h : p ++ r = q ++ s)
    (hle : Text.byteSize p ≤ Text.byteSize q) : ∃ g, q = p ++ g := by
  rcases List.append_eq_append_iff.1 h with ⟨g, hg, -⟩ | ⟨g, hg, -⟩
  · exact ⟨g, hg⟩
  · rw [hg, Text.byteSize_append] at hle
    have hnil : g = [] := Text.byteSize_eq_zero_iff.1 (by omega)
    exact ⟨[], by rw [hg, hnil, List.append_nil, List.append_nil]⟩

/-- A template is **restorable** if none of its literal parts holds the mark of placeholders or an
escaped line feed, and none in front of a hole ends in a star. -/
structure Template.Tagged.IsRestorable (t : Tagged) : Prop where
  unmarked : ∀ q ∈ t.quasis, ¬ Placeholder.mark <:+: q.raw
  unbroken : ∀ q ∈ t.quasis, ¬ ['\\', '\n'] <:+: q.raw
  unstarred : ∀ q ∈ t.quasis.dropLast, ¬ ['*'] <:+ q.raw

/-- What is printed of blocks, the text behind the last of them aside. -/
def StyleBlock.printed (bs : List StyleBlock) : Text :=
  bs.flatMap fun b => b.leading ++ Fragment.texts b.rootFragments

namespace Assembly

variable {a : Assembly} {origin : Option Text} {source : Text} {t : Tagged}

/-- A template that can be read has a relocation, which moves the style sheet of its normalized
text. -/
theorem exists_ofTemplate?_of_readBlock {first : Quasi} {root : Root} {config : BlockConfig}
    {n : Normalized} (hn : n = .ofText (Extraction.ofTemplate t source).text t.base)
    (hfirst : t.quasis.head? = some first) (h : a.readBlock origin source t = .ok (root, config)) :
    ∃ (r : Relocation) (sheet : Root), Sheet.parse a.dialect.grammar n.text = .ok sheet ∧
      Relocation.ofTemplate? t n.text config = some r ∧
      root = { r.root sheet with origin := origin } ∧
      config = { hostEdges := { front := n.dropped }, indentations := n.indentations
                 expressions := (Extraction.ofTemplate t source).expressions } := by
  subst hn
  cases hp : a.dialect.parse origin
      (Normalized.ofText (Extraction.ofTemplate t source).text t.base).text with
  | error e => simp [readBlock, hp, bind, Except.bind] at h
  | ok sheet =>
      obtain ⟨sheet, hsheet, rfl⟩ := a.dialect.parse_eq_ok hp
      simp only [readBlock, hp, bind, Except.bind, Relocation.ofTemplate?, hfirst, Option.bind_some,
        pure, Except.pure, Except.ok.injEq, Prod.mk.injEq] at h
      obtain ⟨rfl, rfl⟩ := h
      refine ⟨_, sheet, hsheet, ?_, rfl, rfl⟩
      rw [Relocation.ofTemplate?, hfirst]
      rfl

/-- What a template is read as, if it can be read. -/
theorem readBlock_eq_ok {first : Quasi} {root : Root} {config : BlockConfig} {n : Normalized}
    (hn : n = .ofText (Extraction.ofTemplate t source).text t.base)
    (hfirst : t.quasis.head? = some first) (h : a.readBlock origin source t = .ok (root, config)) :
    ∃ (r : Relocation) (sheet : Root), Sheet.parse a.dialect.grammar n.text = .ok sheet ∧
      root = { r.root sheet with origin := origin } ∧ r.config = config ∧
      r.lines = LineMap.ofText n.text ∧ config.indentations = n.indentations ∧
      config.frontBytes = n.dropped.bytes ∧
      config.expressions = (Extraction.ofTemplate t source).expressions := by
  obtain ⟨r, sheet, hsheet, hr, hroot, rfl⟩ := exists_ofTemplate?_of_readBlock hn hfirst h
  rw [Relocation.ofTemplate?, hfirst] at hr
  cases hr
  exact ⟨_, sheet, hsheet, hroot, rfl, rfl, rfl, rfl, rfl⟩

/-- **A block is printed as what stands in the source** between the dropped line and the end of the
content. -/
theorem texts_of_readBlock {root : Root} {config : BlockConfig}
    (hsize : Text.byteSize source < Word.signedLimit)
    (hin : t.IsIn source) (ht : t.IsRestorable)
    (h : a.readBlock origin source t = .ok (root, config)) :
    ∃ front dropped body back, source = front ++ dropped ++ body ++ back ∧
      t.contentSpan? = some ⟨Text.byteSize front, Text.byteSize (front ++ dropped ++ body)⟩ ∧
      config.frontBytes = Text.byteSize dropped ∧
      ∀ leading trailing,
        Fragment.texts
          (StyleBlock.rootFragments ⟨root, some config, leading, trailing⟩) = body := by
  obtain ⟨front, gaps, back, hlaid, hsource⟩ := id hin
  obtain ⟨H⟩ := nonempty_hosting (f := RawText.atoms) hin hsize
    (fun q _ => RawText.texts_atoms q.raw)
    (fun q hq => (RawText.sound_atoms (hlaid.isRaw q hq) (ht.unbroken q hq)).isAtom)
    (fun q _ a ha => RawText.isLiteral_of_mem_atoms ha) ht.unmarked t.base
  have hsound : Sound (Extraction.atoms RawText.atoms 0 t.quasis) :=
    Extraction.sound_atoms hlaid.isRaw ht.unbroken ht.unstarred
      (length_le_indexLimit hlaid hsource hsize)
  have hmark : Unmarked (Extraction.atoms RawText.atoms 0 t.quasis) :=
    Extraction.unmarked_atoms (fun q _ => RawText.texts_atoms q.raw) ht.unmarked
  obtain ⟨first, hfirst, -⟩ := H.laid.exists_head
  obtain ⟨r, sheet, hsheet, rfl, rfl, hlines, hindent, hbytes, hes⟩ := readBlock_eq_ok rfl hfirst h
  have hbody := H.texts_fragments hsound hmark rfl hindent hlines hsheet
  have hwhole : source = H.front ++ H.dropped ++ expand H.gaps H.kept ++ '\x60' :: H.back := by
    have heq := H.source_eq
    rw [Hosting.kept, expand_append, expand_chars]
    simpa only [List.append_assoc] using heq
  have hcontent : H.front ++ weave t.quasis H.gaps = H.front ++ H.dropped ++ expand H.gaps H.kept :=
    List.append_cancel_right (H.woven_eq.symm.trans hwhole)
  refine ⟨H.front, H.dropped, expand H.gaps H.kept, '\x60' :: H.back, hwhole, ?_, ?_, fun _ _ => ?_⟩
  · rw [contentSpan?_of_laid H.laid, hcontent]
  · rw [hbytes, H.byteSize_dropped]
  · rw [← hbody, ← H.expressions_eq, ← hes]
    rfl

/-! ### Assembling -/

/-- What is printed of the blocks so far is the source up to the cursor. -/
structure Progress.Covers (source : Text) (p : Progress) : Prop where
  cursor : p.cursor = Text.byteSize (StyleBlock.printed p.blocks)
  isPrefix : StyleBlock.printed p.blocks <+: source

/-- **One more template** leaves the source covered up to the cursor. -/
theorem Progress.Covers.add {p : Progress} {lines : LineMap} (hp : p.Covers source)
    (hsize : Text.byteSize source < Word.signedLimit) (hin : t.IsIn source) (ht : t.IsRestorable) :
    (a.add origin lines source p t).Covers source := by
  rw [Assembly.add]
  split
  · exact hp
  next content hcontent =>
  split
  · exact ⟨hp.cursor, hp.isPrefix⟩
  next hcursor =>
  split
  · exact ⟨hp.cursor, hp.isPrefix⟩
  next root config hread =>
  obtain ⟨front, dropped, body, back, hsource, hspan, hbytes, htexts⟩ :=
    texts_of_readBlock hsize hin ht hread
  obtain rfl := Option.some.inj (hspan.symm.trans hcontent)
  obtain ⟨rest, hrest⟩ := hp.isPrefix
  obtain ⟨lead, hlead⟩ := Text.exists_eq_append (q := front ++ dropped) (s := body ++ back)
    (hrest.trans (by rw [hsource, List.append_assoc])) (by
      simp only [hp.cursor, Nat.not_lt] at hcursor
      rw [Text.byteSize_append]
      omega)
  have hslice : Text.slice p.cursor (Text.byteSize front + config.frontBytes) source = lead := by
    rw [hp.cursor, hbytes, ← Text.byteSize_append, hlead, hsource, hlead, List.append_assoc _ body]
    exact Text.slice_append _ _ _
  have hprinted : StyleBlock.printed (p.blocks ++ [⟨root, some config, lead, none⟩]) =
      front ++ dropped ++ body := by
    rw [StyleBlock.printed, List.flatMap_append, hlead]
    simp [StyleBlock.printed, htexts]
  refine ⟨?_, ?_⟩
  · simp only [hslice, hprinted]
  · simp only [hslice, hprinted]
    exact ⟨back, hsource.symm⟩

/-- **The source is covered** up to the cursor, however many templates are added. -/
theorem covers_foldl {ts : List Tagged} {lines : LineMap}
    (hsize : Text.byteSize source < Word.signedLimit) (hin : ∀ t ∈ ts, t.IsIn source)
    (ht : ∀ t ∈ ts, t.IsRestorable) {p : Progress} (hp : p.Covers source) :
    (ts.foldl (a.add origin lines source) p).Covers source := by
  induction ts generalizing p with
  | nil => exact hp
  | cons t ts ih =>
      exact ih (fun u hu => hin u (List.mem_cons_of_mem _ hu))
        (fun u hu => ht u (List.mem_cons_of_mem _ hu))
        (hp.add hsize (hin t List.mem_cons_self) (ht t List.mem_cons_self))

/-! ### Printing -/

/-- Only the last block gets the text behind the blocks. -/
theorem closeBlocks_ne_nil (trailing : Text) {bs : List StyleBlock} (hne : bs ≠ []) :
    closeBlocks trailing bs ≠ [] := by
  match bs with
  | [] => contradiction
  | [b] => simp [closeBlocks]
  | b :: c :: bs => simp [closeBlocks]

/-- What is printed of blocks of which the last has the text behind it. -/
theorem texts_blockFragments (trailing : Text) {bs : List StyleBlock} (hne : bs ≠ []) :
    Fragment.texts (Document.blockFragments (closeBlocks trailing bs)) =
      StyleBlock.printed bs ++ trailing := by
  match bs with
  | [b] =>
      have hroot : StyleBlock.rootFragments { b with trailing := some trailing } =
        b.rootFragments := rfl
      simp [closeBlocks, Document.blockFragments, hroot, hostFragment, Fragment.texts,
        StyleBlock.printed]
  | b :: c :: bs =>
      have hrest := texts_blockFragments trailing (List.cons_ne_nil c bs)
      have hne := closeBlocks_ne_nil trailing (List.cons_ne_nil c bs)
      rw [closeBlocks, Document.blockFragments, if_neg (by simpa using hne), List.append_nil,
        Fragment.texts_append, hrest]
      simp [hostFragment, Fragment.texts, StyleBlock.printed]

/-- A document whose blocks cover the source up to the cursor is printed as its source. -/
theorem Progress.Covers.render_eq {p : Progress} (hp : p.Covers source)
    (skipped : List SkippedBlock) :
    Document.render ⟨source, closeBlocks (Text.dropBytes p.cursor source) p.blocks, skipped⟩ =
      source := by
  obtain ⟨rest, hrest⟩ := hp.isPrefix
  have hdrop : Text.dropBytes p.cursor source = rest := by
    rw [hp.cursor, ← hrest, Text.dropBytes_append]
  rw [hdrop, Document.render, Document.fragments]
  by_cases hne : p.blocks = []
  · simp [hne, closeBlocks, Fragment.texts]
  · rw [if_neg (by simpa using closeBlocks_ne_nil rest hne), texts_blockFragments rest hne, hrest]

/-- **The document round trip.** Whatever the dialect, the matcher and the directive, and whichever
of its templates are set aside: a source whose templates can be found is read as a document, and
this is printed as the source, if all templates with style text are restorable. The bound is the
size of the texts that fit into memory. -/
theorem render_eq_source {dialect : Dialect} {matcher : Matcher} {directive : Text}
    {ts : List Tagged}
    (hsize : Text.byteSize source < Word.signedLimit) (hts : findTemplates source = .ok ts)
    (hrestorable : ∀ t ∈ ts,
      selects { dialect := dialect, matcher := matcher, directive := directive } t = true →
        t.IsRestorable) :
    ∃ doc, parse { dialect := dialect, matcher := matcher, directive := directive } origin
      source = .ok doc ∧ doc.render = source := by
  let a : Assembly := { dialect := dialect, matcher := matcher, directive := directive }
  have hparse : a.parse origin source = .ok (a.documentOf origin source ts) :=
    congrArg (Except.map _) hts
  have hempty : Progress.Covers source {} := ⟨rfl, List.nil_prefix⟩
  have hcovers : ((ts.filter a.selects).foldl
      (a.add origin (LineMap.ofText source) source) {}).Covers source := covers_foldl hsize
    (fun t ht => isIn_of_mem_findTemplates hts (List.mem_of_mem_filter ht))
    (fun t ht => hrestorable t (List.mem_of_mem_filter ht) (List.of_mem_filter ht)) hempty
  exact ⟨_, hparse, hcovers.render_eq _⟩

/-- A block with a dropped line and indentation, a hole in a value and one that stands for a
comment. -/
theorem render_eq_source_twoHoles :
    let source : Text := "css`\n  a: $\x7bx\x7d;\n  $\x7by\x7d\n  `".toList
    let t : Tagged :=
      { tag := .identifier "css".toList, span := ⟨0, 26⟩
        quasis :=
          [⟨⟨4, 10⟩, ⟨1, 5⟩, ⟨2, 6⟩, "\n  a: ".toList⟩,
            ⟨⟨14, 18⟩, ⟨2, 10⟩, ⟨3, 3⟩, ";\n  ".toList⟩, ⟨⟨22, 25⟩, ⟨3, 7⟩, ⟨4, 3⟩, "\n  ".toList⟩]
        holes := [⟨⟨12, 13⟩, ⟨2, 8⟩⟩, ⟨⟨20, 21⟩, ⟨3, 5⟩⟩], leadingComments := [] }
    findTemplates source = .ok [t] ∧ t.IsRestorable ∧
      ∃ doc, parse { dialect := .css, matcher := {}, directive := [] } none source = .ok doc ∧
        doc.render = source := by
  intro source t
  have hts : findTemplates source = .ok [t] := by decide +kernel
  have ht : t.IsRestorable := ⟨by decide +kernel, by decide +kernel, by decide +kernel⟩
  exact ⟨hts, ht, render_eq_source (by decide +kernel) hts
    fun u hu _ => List.mem_singleton.1 hu ▸ ht⟩

end Assembly

end StyleBlocks
