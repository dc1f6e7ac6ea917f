import StyleBlocks.Proofs.Document.MalformedBlocks
import StyleBlocks.Proofs.Document.RoundTrip

/-!
# The account of the host text

A document keeps the host text in pieces: what a block has in front of it, what its style sheet stands
for, and what is behind the last block. A blank first line that is dropped from a template goes with
the text in front. Put together, the pieces are the source, each part of it once.

A dropped line is made of blanks. It ends in front of the first hole, as a placeholder starts with a
slash, so it lies in the first literal part of its template.

## Main results

* `Extraction.exists_weave_eq`: a line that is dropped lies in the content of the template.
* `Assembly.Progress.Accounts.add`: one more template leaves the source accounted for up to the cursor.
* `Assembly.hostText_accounted`: the pieces of a document are the source.
-/

namespace StyleBlocks

open Sheet Template

/-- A text that is given in three parts has the middle one between the other two. -/
theorem Text.slice_eq {t p g s : Text} (h : t = p ++ g ++ s) :
    Text.slice (Text.byteSize p) (Text.byteSize (p ++ g)) t = g := by
  rw [h, Text.slice_append]

/-- Blanks that the joined parts of a template start with are in front of its first hole. -/
theorem Extraction.exists_weave_eq {i : Nat} {qs : List Quasi} {d : Text} (gs : List Text)
    (hd : '/' ∉ d) (h : d <+: joinFrom i qs) : ∃ body, weave qs gs = d ++ body := by
  match qs with
  | [] =>
      obtain rfl := List.prefix_nil.1 h
      exact ⟨_, rfl⟩
  | q :: qs =>
      obtain ⟨tail, htail⟩ : ∃ tail, weave (q :: qs) gs = q.raw ++ tail := by
        cases gs with
        | nil => exact ⟨_, List.flatMap_cons⟩
        | cons g gs => exact ⟨g ++ weave qs gs, List.append_assoc _ _ _⟩
      -- behind the first part there is nothing, or a placeholder
      obtain ⟨rest, hrest, hslash⟩ : ∃ rest, joinFrom i (q :: qs) = q.raw ++ rest ∧
          (rest = [] ∨ rest.head? = some '/') := by
        cases qs with
        | nil => exact ⟨[], (List.append_nil _).symm, Or.inl rfl⟩
        | cons r qs => exact ⟨_, List.append_assoc _ _ _, Or.inr rfl⟩
      obtain ⟨body, hbody⟩ := h
      have hraw : ∃ g, q.raw = d ++ g := by
        rcases List.append_eq_append_iff.1 (hbody.trans hrest) with ⟨g, hg, -⟩ | ⟨g, hg, hg'⟩
        · exact ⟨g, hg⟩
        · cases g with
          | nil => exact ⟨[], by rw [hg, List.append_nil, List.append_nil]⟩
          | cons c g =>
              rcases hslash with hnil | hhead
              · simp [hnil] at hg'
              · obtain rfl : c = '/' := by simpa [hg'] using hhead
                exact absurd (hg ▸ List.mem_append_right _ List.mem_cons_self) hd
      obtain ⟨g, hg⟩ := hraw
      exact ⟨g ++ tail, by rw [htail, hg, List.append_assoc]⟩

namespace Template.Tagged

variable {t u : Tagged}

/-- Contents that do not overlap do not touch, as there is a backtick behind each. -/
theorem StartsBefore.stop_lt_start (h : t.StartsBefore u) (ht : t.IsProper) (hu : u.IsProper)
    (hle : t.content.stop ≤ u.content.start) : t.content.stop < u.content.start := by
  have := ht.stop_eq
  have := ht.le
  have := hu.start_lt
  have := hu.le
  have := hu.stop_eq
  simp only [StartsBefore, IsInTagOf, IsInContentOf] at h
  omega

end Template.Tagged

namespace StyleBlock

/-- The bytes of the content of its template that are not part of a block. -/
def frontBytes (b : StyleBlock) : Nat :=
  match b.config with
  | some c => c.frontBytes
  | none => 0

@[simp] theorem frontBytes_mk (root : Root) (c : BlockConfig) (leading : Text)
    (trailing : Option Text) : frontBytes ⟨root, some c, leading, trailing⟩ = c.frontBytes := rfl

/-- The **host text of a block**, which was read from the given template: the text in front of the
block, and what its style sheet stands for. -/
def hostText (source : Text) (t : Tagged) (b : StyleBlock) : Text :=
  b.leading ++ Text.slice (t.content.start + b.frontBytes) t.content.stop source

/-- The host text of blocks. -/
def hostTexts (source : Text) (ts : List Tagged) (bs : List StyleBlock) : Text :=
  (List.zipWith (hostText source) ts bs).flatten

/-- The host text of a block more stands behind that of the others. -/
theorem hostTexts_concat {source : Text} {ts : List Tagged} {bs : List StyleBlock} {t : Tagged}
    {b : StyleBlock} (h : ts.length = bs.length) :
    hostTexts source (ts ++ [t]) (bs ++ [b]) = hostTexts source ts bs ++ hostText source t b := by
  rw [hostTexts, List.zipWith_append h, List.flatten_append]
  simp [hostTexts]

end StyleBlock

namespace Assembly

variable {a : Assembly} {origin : Option Text} {source : Text} {t u : Tagged}
  {ts us accepted : List Tagged} {lines : LineMap} {p : Progress}

/-- A block **was read from** a template: it has the style sheet and the configuration that the
template is read as, and the dropped line lies in the content of the template. -/
structure WasReadFrom (a : Assembly) (origin : Option Text) (source : Text) (t : Tagged)
    (b : StyleBlock) : Prop where
  contentSpan?_eq : t.contentSpan? = some t.content
  readBlock_eq : ∃ config, b.config = some config ∧
    a.readBlock origin source t = .ok (b.root, config)
  front_le : t.content.start + b.frontBytes ≤ t.content.stop

/-- **Where a block stands**: in the source, its template has the dropped line in front of the style
text, and both are in the content. -/
theorem exists_of_readBlock {root : Root} {config : BlockConfig} (hin : t.IsIn source)
    (h : a.readBlock origin source t = .ok (root, config)) :
    ∃ front dropped body back, source = front ++ dropped ++ body ++ back ∧
      t.contentSpan? = some ⟨Text.byteSize front, Text.byteSize (front ++ dropped ++ body)⟩ ∧
      config.frontBytes = Text.byteSize dropped := by
  obtain ⟨front, gaps, back, hlaid, hsource⟩ := hin
  obtain ⟨first, hfirst, -⟩ := hlaid.exists_head
  obtain ⟨-, -, -, -, -, -, -, hbytes, -⟩ := readBlock_eq_ok rfl hfirst h
  obtain ⟨d, htext, hsize, -, hblank, -⟩ :=
    Normalized.ofText_spec (Extraction.ofTemplate t source).text t.base
  have hslash : '/' ∉ d := fun hmem => by
    rcases hblank _ hmem with h | h | h <;> revert h <;> decide
  obtain ⟨body, hbody⟩ := Extraction.exists_weave_eq gaps hslash ⟨_, htext.symm⟩
  refine ⟨front, d, body, '\x60' :: back, ?_, ?_, hbytes.trans hsize.symm⟩
  · rw [hsource, hbody]
    simp
  · rw [contentSpan?_of_laid hlaid, hbody, List.append_assoc]

/-! ### Assembling -/

/-- The **account** of what has been assembled: the blocks were read from the accepted ones among the
given templates, the contents of these follow each other, and the host text of the blocks is the
source up to the cursor. -/
structure Progress.Accounts (a : Assembly) (origin : Option Text) (source : Text)
    (ts accepted : List Tagged) (p : Progress) : Prop where
  sublist : accepted.Sublist ts
  blocks : List.Forall₂ (a.WasReadFrom origin source) accepted p.blocks
  trailing : ∀ b ∈ p.blocks, b.trailing = none
  stop_le : ∀ t ∈ accepted, t.content.stop ≤ p.cursor
  pairwise : accepted.Pairwise fun t u => t.content.stop < u.content.start
  cursor : p.cursor = Text.byteSize (StyleBlock.hostTexts source accepted p.blocks)
  isPrefix : StyleBlock.hostTexts source accepted p.blocks <+: source

/-- Before the first template nothing has to be accounted for. -/
theorem Progress.Accounts.init : Progress.Accounts a origin source [] [] {} where
  sublist := .slnil
  blocks := .nil
  trailing := by simp
  stop_le := by simp
  pairwise := .nil
  cursor := rfl
  isPrefix := List.nil_prefix

/-- A template that is set aside leaves the account as it is. -/
theorem Progress.Accounts.skip {content : Span} {reason : SkipReason}
    (hp : p.Accounts a origin source ts accepted) :
    (p.skip lines content reason).Accounts a origin source (ts ++ [t]) accepted where
  sublist := hp.sublist.trans (List.sublist_append_left _ _)
  blocks := hp.blocks
  trailing := hp.trailing
  stop_le := hp.stop_le
  pairwise := hp.pairwise
  cursor := hp.cursor
  isPrefix := hp.isPrefix

/-- The text in front of a block goes from the cursor to the end of the dropped line. -/
theorem Progress.Accounts.hostTexts_append_slice {front dropped rest : Text}
    (hp : p.Accounts a origin source ts accepted) (hsource : source = front ++ dropped ++ rest)
    (hcursor : p.cursor ≤ Text.byteSize front) :
    StyleBlock.hostTexts source accepted p.blocks ++
      Text.slice p.cursor (Text.byteSize front + Text.byteSize dropped) source = front ++ dropped := by
  obtain ⟨tail, htail⟩ := hp.isPrefix
  have hle : Text.byteSize (StyleBlock.hostTexts source accepted p.blocks) ≤
      Text.byteSize (front ++ dropped) := by
    rw [Text.byteSize_append, ← hp.cursor]
    exact hcursor.trans (Nat.le_add_right _ _)
  obtain ⟨lead, hlead⟩ := Text.exists_eq_append (htail.trans hsource) hle
  have hslice : Text.slice (Text.byteSize (StyleBlock.hostTexts source accepted p.blocks))
      (Text.byteSize (StyleBlock.hostTexts source accepted p.blocks ++ lead)) source = lead :=
    Text.slice_eq (s := rest) (by rw [← hlead, hsource])
  rw [hp.cursor, ← Text.byteSize_append, hlead, hslice]

/-- A template that is accepted is accounted for, if the host text of its block is what comes next. -/
theorem Progress.Accounts.accept {b : StyleBlock} (hp : p.Accounts a origin source ts accepted)
    (hb : a.WasReadFrom origin source t b) (htrailing : b.trailing = none)
    (hcursor : p.cursor ≤ t.content.start) (ht : t.IsProper) (hts : ∀ u ∈ ts, u.IsProper)
    (hstarts : ∀ u ∈ ts, u.StartsBefore t)
    (hsize : t.content.stop = Text.byteSize
      (StyleBlock.hostTexts source accepted p.blocks ++ b.hostText source t))
    (hsource : StyleBlock.hostTexts source accepted p.blocks ++ b.hostText source t <+: source) :
    Progress.Accounts a origin source (ts ++ [t]) (accepted ++ [t])
      { p with cursor := t.content.stop, blocks := p.blocks ++ [b] } where
  sublist := hp.sublist.append (List.Sublist.refl _)
  blocks := List.rel_append hp.blocks (.cons hb .nil)
  trailing c hc := by
    rcases List.mem_append.1 hc with hc | hc
    · exact hp.trailing c hc
    · rw [List.mem_singleton.1 hc, htrailing]
  stop_le u hu := by
    rcases List.mem_append.1 hu with hu | hu
    · exact (hp.stop_le u hu).trans (hcursor.trans ht.le)
    · rw [List.mem_singleton.1 hu]
  pairwise := by
    refine List.pairwise_append.2 ⟨hp.pairwise, List.pairwise_singleton _ _, fun r hr u hu => ?_⟩
    obtain rfl := List.mem_singleton.1 hu
    have hmem := hp.sublist.subset hr
    exact (hstarts r hmem).stop_lt_start (hts r hmem) ht ((hp.stop_le r hr).trans hcursor)
  cursor := by rw [StyleBlock.hostTexts_concat hp.blocks.length_eq, hsize]
  isPrefix := by rwa [StyleBlock.hostTexts_concat hp.blocks.length_eq]

/-- **One more template** leaves the source accounted for up to the cursor, whether it becomes a block
or is set aside. -/
theorem Progress.Accounts.add (hp : p.Accounts a origin source ts accepted) (hin : t.IsIn source)
    (ht : t.IsProper) (hts : ∀ u ∈ ts, u.IsProper) (hstarts : ∀ u ∈ ts, u.StartsBefore t) :
    ∃ accepted', (a.add origin lines source p t).Accounts a origin source (ts ++ [t]) accepted' := by
  rw [Assembly.add, ht.contentSpan?_eq]
  simp only
  split
  · exact ⟨accepted, hp.skip⟩
  next hcursor =>
  rw [Nat.not_lt] at hcursor
  split
  · exact ⟨accepted, hp.skip⟩
  next root config hread =>
  obtain ⟨front, dropped, body, back, hsource, hspan, hbytes⟩ := exists_of_readBlock hin hread
  have hcontent := Option.some.inj (ht.contentSpan?_eq.symm.trans hspan)
  have hstart : t.content.start = Text.byteSize front := by rw [hcontent]
  have hstop : t.content.stop = Text.byteSize (front ++ dropped ++ body) := by rw [hcontent]
  have hlead := hp.hostTexts_append_slice (hsource.trans (List.append_assoc _ _ _))
    (hstart ▸ hcursor)
  have hbody : Text.slice (t.content.start + config.frontBytes) t.content.stop source = body := by
    rw [hstart, hstop, hbytes, ← Text.byteSize_append]
    exact Text.slice_eq hsource
  -- the text in front of the block and the content are what comes next in the source
  have htexts : StyleBlock.hostTexts source accepted p.blocks ++ StyleBlock.hostText source t
      ⟨root, some config, Text.slice p.cursor (t.content.start + config.frontBytes) source, none⟩ =
      front ++ dropped ++ body := by
    rw [StyleBlock.hostText, StyleBlock.frontBytes_mk, hbody, ← List.append_assoc, hstart, hbytes,
      hlead]
  have hle : t.content.start + config.frontBytes ≤ t.content.stop := by
    rw [hstart, hstop, hbytes, ← Text.byteSize_append, Text.byteSize_append _ body]
    exact Nat.le_add_right _ _
  exact ⟨accepted ++ [t], hp.accept ⟨ht.contentSpan?_eq, ⟨config, rfl, hread⟩, hle⟩ rfl hcursor ht hts
    hstarts (htexts ▸ hstop) (htexts ▸ ⟨back, hsource.symm⟩)⟩

/-- **The source is accounted for** up to the cursor, however many templates are added. -/
theorem exists_accounts_foldl (hp : p.Accounts a origin source ts accepted)
    (hin : ∀ t ∈ us, t.IsIn source) (hproper : ∀ t ∈ ts ++ us, t.IsProper)
    (hstarts : (ts ++ us).Pairwise Tagged.StartsBefore) :
    ∃ accepted', (us.foldl (a.add origin lines source) p).Accounts a origin source (ts ++ us)
      accepted' := by
  induction us generalizing ts accepted p with
  | nil => exact ⟨accepted, by rwa [List.append_nil]⟩
  | cons t us ih =>
      have hcross := (List.pairwise_append.1 hstarts).2.2
      obtain ⟨accepted', hp'⟩ : ∃ accepted',
          (a.add origin lines source p t).Accounts a origin source (ts ++ [t]) accepted' :=
        hp.add (hin t List.mem_cons_self)
          (hproper t (List.mem_append_right _ List.mem_cons_self))
          (fun u hu => hproper u (List.mem_append_left _ hu))
          (fun u hu => hcross u hu t List.mem_cons_self)
      rw [List.append_cons] at hproper hstarts ⊢
      exact ih hp' (fun u hu => hin u (List.mem_cons_of_mem _ hu)) hproper hstarts

/-! ### The text behind the last block -/

/-- Only the last block gets the text behind it. -/
theorem closeBlocks_concat (trailing : Text) (bs : List StyleBlock) (b : StyleBlock) :
    closeBlocks trailing (bs ++ [b]) = bs ++ [{ b with trailing := some trailing }] := by
  induction bs with
  | nil => rfl
  | cons c bs ih =>
      cases bs with
      | nil => rfl
      | cons d bs =>
          rw [List.cons_append, List.cons_append, closeBlocks, ← List.cons_append, ih]
          rfl

/-- Blocks are read from the same templates when the last has the text behind it. -/
theorem wasReadFrom_closeBlocks {trailing : Text} {bs : List StyleBlock}
    (h : List.Forall₂ (a.WasReadFrom origin source) ts bs) :
    List.Forall₂ (a.WasReadFrom origin source) ts (closeBlocks trailing bs) := by
  induction h with
  | nil => exact .nil
  | @cons t b ts bs hb hbs ih =>
      cases bs with
      | nil => exact .cons ⟨hb.contentSpan?_eq, hb.readBlock_eq, hb.front_le⟩ hbs
      | cons c bs => exact .cons hb ih

/-- The text behind the last block is no part of the host text of blocks. -/
theorem hostTexts_closeBlocks (trailing : Text) (ts : List Tagged) (bs : List StyleBlock) :
    StyleBlock.hostTexts source ts (closeBlocks trailing bs) = StyleBlock.hostTexts source ts bs := by
  fun_induction closeBlocks trailing bs generalizing ts with
  | case1 => rfl
  | case2 b => cases ts <;> rfl
  | case3 b c bs ih =>
      cases ts with
      | nil => rfl
      | cons t ts =>
          have ih := ih ts
          simp only [StyleBlock.hostTexts] at ih
          simp only [StyleBlock.hostTexts, List.zipWith_cons_cons, List.flatten_cons, ih]

/-- **The host text is accounted for exactly once.** Whatever the dialect, the matcher and the
directive: in the document of a source whose templates can be found, the blocks were read from some of
the templates with style text, and in order. The contents of these follow each other without
overlapping, the line dropped from each lies in its content, and only the last block has the text
behind it. The texts in front of the blocks, what is left of the contents and the text behind them
all, put together, are the source. -/
theorem hostText_accounted {dialect : Dialect} {matcher : Matcher} {directive : Text}
    (hts : findTemplates source = .ok ts) :
    ∃ (doc : Document) (accepted : List Tagged),
      parse { dialect := dialect, matcher := matcher, directive := directive } origin source =
        .ok doc ∧
      accepted.Sublist
        (ts.filter (selects { dialect := dialect, matcher := matcher, directive := directive })) ∧
      List.Forall₂
        (WasReadFrom { dialect := dialect, matcher := matcher, directive := directive } origin source)
        accepted doc.blocks ∧
      accepted.Pairwise (fun t u => t.content.stop < u.content.start) ∧
      (doc.blocks ≠ [] → ∃ bs last trailing, doc.blocks = bs ++ [last] ∧
        (∀ b ∈ bs, b.trailing = none) ∧ last.trailing = some trailing ∧
        StyleBlock.hostTexts source accepted doc.blocks ++ trailing = source) := by
  let a : Assembly := { dialect := dialect, matcher := matcher, directive := directive }
  have hparse : a.parse origin source = .ok (a.documentOf origin source ts) :=
    congrArg (Except.map _) hts
  obtain ⟨hproper, hstarts⟩ := pairwise_of_findTemplates hts
  obtain ⟨accepted, hp⟩ : ∃ accepted, ((ts.filter a.selects).foldl
      (a.add origin (LineMap.ofText source) source) {}).Accounts a origin source
      ([] ++ ts.filter a.selects) accepted :=
    exists_accounts_foldl .init
      (fun t ht => isIn_of_mem_findTemplates hts (List.mem_of_mem_filter ht))
      (fun t ht => hproper t (List.mem_of_mem_filter ht)) (hstarts.filter a.selects)
  rw [List.nil_append] at hp
  refine ⟨_, accepted, hparse, hp.sublist, wasReadFrom_closeBlocks hp.blocks, hp.pairwise, ?_⟩
  rw [documentOf]
  simp only
  generalize (ts.filter a.selects).foldl (a.add origin (LineMap.ofText source) source) {} = p at hp
  obtain ⟨rest, hrest⟩ := hp.isPrefix
  have hdrop : Text.dropBytes p.cursor source = rest := by
    have h := Text.dropBytes_append (StyleBlock.hostTexts source accepted p.blocks) rest
    rwa [hrest, ← hp.cursor] at h
  rw [hostTexts_closeBlocks, hdrop]
  intro hne
  obtain hnil | ⟨bs, b, hbs⟩ := List.eq_nil_or_concat p.blocks
  · rw [hnil] at hne
    contradiction
  · rw [hbs, List.concat_eq_append] at hrest ⊢
    refine ⟨bs, _, rest, closeBlocks_concat rest bs b, fun c hc => ?_, rfl, hrest⟩
    refine hp.trailing c ?_
    rw [hbs, List.concat_eq_append]
    exact List.mem_append_left _ hc

/-- Two blocks, the first one with a dropped line. -/
theorem hostText_accounted_twoBlocks :
    let source : Text := "css\x60\n  a: b;\x60 + css\x60c: d;\x60;".toList
    let t : Tagged :=
      { tag := .identifier "css".toList, span := ⟨0, 13⟩
        quasis := [⟨⟨4, 12⟩, ⟨1, 5⟩, ⟨2, 8⟩, "\n  a: b;".toList⟩], holes := []
        leadingComments := [] }
    let u : Tagged :=
      { tag := .identifier "css".toList, span := ⟨16, 26⟩
        quasis := [⟨⟨20, 25⟩, ⟨2, 16⟩, ⟨2, 21⟩, "c: d;".toList⟩], holes := []
        leadingComments := [] }
    findTemplates source = .ok [t, u] ∧ ∃ (doc : Document) (accepted : List Tagged),
      parse { dialect := .css, matcher := {}, directive := [] } none source = .ok doc ∧
      accepted.Sublist [t, u] ∧
      doc.blocks.map (fun b => (b.leading, b.frontBytes, b.trailing)) =
        [("css\x60\n".toList, 1, none), ("\x60 + css\x60".toList, 0, some "\x60;".toList)] ∧
      StyleBlock.hostTexts source accepted doc.blocks ++ "\x60;".toList = source := by
  intro source t u
  have hclosed : (readToEnd (LineMap.ofText source) {} 0 source).map Nesting.closed = .ok [t, u] := by
    decide +kernel
  have hts : findTemplates source = .ok [t, u] := by
    cases hn : readToEnd (LineMap.ofText source) {} 0 source with
    | error e => simp [hn, Except.map] at hclosed
    | ok n =>
        have hcl : n.closed = [t, u] := by simpa [hn, Except.map] using hclosed
        refine findTemplates_eq_ok_iff.2 ⟨n, hn, ?_⟩
        rw [hcl, List.mergeSort]
        simp [List.MergeSort.Internal.splitInTwo, t, u]
  obtain ⟨doc, accepted, hdoc, hsublist, -, -, hwhole⟩ :=
    @hostText_accounted none source [t, u] .css {} [] hts
  obtain rfl := Except.ok.inj (hdoc.symm.trans (congrArg (Except.map _) hts))
  have hblocks : (documentOf { dialect := .css, matcher := {}, directive := [] } none source
      [t, u]).blocks.map (fun b => (b.leading, b.frontBytes, b.trailing)) =
        [("css\x60\n".toList, 1, none), ("\x60 + css\x60".toList, 0, some "\x60;".toList)] := by
    decide +kernel
  refine ⟨hts, _, accepted, hdoc, hsublist.trans List.filter_sublist, hblocks, ?_⟩
  obtain ⟨bs, last, trailing, hbs, -, htrailing, htext⟩ := hwhole (by
    intro hnil
    rw [hnil] at hblocks
    contradiction)
  obtain rfl : trailing = "\x60;".toList := by
    have hlast := congrArg List.getLast? hblocks
    rw [hbs] at hlast
    simp only [List.map_append, List.map_cons, List.map_nil, List.getLast?_concat, htrailing] at hlast
    simp only [List.getLast?_cons_cons, List.getLast?_singleton, Option.some.injEq,
      Prod.mk.injEq] at hlast
    exact hlast.2.2
  exact htext

end Assembly

end StyleBlocks
