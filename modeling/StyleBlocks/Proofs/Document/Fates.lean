import StyleBlocks.Proofs.Document.Emission
import StyleBlocks.Proofs.Template.Laminar

/-!
# What becomes of templates

Of the templates that hold style text, each becomes a block, or it is set aside because its style text
is malformed, or because it is nested. Templates are taken by the start of their tags, and one
comparison with the end of the last block's content tells which of them are nested. As templates do not
overlap by halves, these are the ones inside a block, be it between its backticks or in its tag.

## Main results

* `Tagged.isInside_iff`: where the comparison holds.
* `Assembly.foldl_add`: blocks and templates set aside are read off the fates, in order.
* `Assembly.fates_of_parse`: every template has one fate, and which it is.
-/

namespace StyleBlocks

open Sheet Template

namespace Template.Tagged

variable {t r : Tagged}

/-- The content of a template lies in the content of another one. -/
def IsInContent (t r : Tagged) : Prop :=
  ∃ c d, r.contentSpan? = some c ∧ t.contentSpan? = some d ∧ d.IsIn c

/-- The content of a template lies in the tag of another one, between the start of the tag and the
start of the content. -/
def IsInTag (t r : Tagged) : Prop :=
  ∃ c d, r.contentSpan? = some c ∧ t.contentSpan? = some d ∧ d.IsIn ⟨r.span.start, c.start⟩

/-- A template is **inside** another one if its content lies in the content or in the tag of that. -/
def IsInside (t r : Tagged) : Prop :=
  t.IsInContent r ∨ t.IsInTag r

/-- A proper template is inside another one just if its content lies in the content of that or
between the start of its tag and its content. -/
theorem isInside_iff_of_isProper (ht : t.IsProper) (hr : r.IsProper) :
    t.IsInside r ↔ t.content.IsIn r.content ∨ t.content.IsIn ⟨r.span.start, r.content.start⟩ := by
  simp [IsInside, IsInContent, IsInTag, ht.contentSpan?_eq, hr.contentSpan?_eq]

/-- **Where the comparison holds**: of two templates, the content of the one whose tag starts later
starts in front of the end of the other's content if it is inside that. -/
theorem isInside_iff (ht : t.IsProper) (hr : r.IsProper) (h : r.StartsBefore t) :
    t.IsInside r ↔ t.content.start < r.content.stop := by
  have := ht.start_lt
  have := ht.le
  have := ht.stop_eq
  have := hr.le
  have := hr.stop_eq
  simp only [StartsBefore, IsInTagOf, IsInContentOf] at h
  rw [isInside_iff_of_isProper ht hr]
  simp only [Span.IsIn]
  omega

/-- No template is inside one whose tag starts later. -/
theorem not_isInside (ht : t.IsProper) (hr : r.IsProper) (h : t.StartsBefore r) :
    ¬ t.IsInside r := by
  have := ht.start_lt
  have := ht.le
  have := ht.stop_eq
  have := hr.start_lt
  have := hr.le
  have := hr.stop_eq
  simp only [StartsBefore, IsInTagOf, IsInContentOf] at h
  rw [isInside_iff_of_isProper ht hr]
  simp only [Span.IsIn]
  omega

end Template.Tagged

/-- The **fate** of a template: what it is read as, or why it is set aside. -/
abbrev Fate :=
  Except SkipReason (Root × BlockConfig)

namespace Fate

/-- The style sheet and the configuration of the block that a template becomes, if it does. -/
def block? (x : Tagged × Fate) : Option (Root × Option BlockConfig) :=
  x.2.toOption.map fun b => (b.1, some b.2)

/-- The entry for a template that is set aside, if it is. -/
def skipped? (lines : LineMap) (x : Tagged × Fate) : Option SkippedBlock :=
  match x.2 with
  | .ok _ => none
  | .error reason => x.1.contentSpan?.map fun content => ⟨lines.range content, reason⟩

variable (t : Tagged)

/-- A template that is read becomes a block. -/
@[simp] theorem block?_ok (b : Root × BlockConfig) : block? (t, .ok b) = some (b.1, some b.2) := rfl

/-- A template that is set aside becomes no block. -/
@[simp] theorem block?_error (reason : SkipReason) : block? (t, .error reason) = none := rfl

/-- A template that becomes a block is not set aside. -/
@[simp] theorem skipped?_ok (lines : LineMap) (b : Root × BlockConfig) :
    skipped? lines (t, .ok b) = none := rfl

/-- A template that is set aside has an entry for its content. -/
@[simp] theorem skipped?_error (lines : LineMap) (reason : SkipReason) :
    skipped? lines (t, .error reason) =
      t.contentSpan?.map fun content => ⟨lines.range content, reason⟩ := rfl

end Fate

namespace Assembly

variable {a : Assembly} {origin : Option Text} {source : Text} {cursor : Nat} {t r : Tagged}
  {ts : List Tagged}

/-- The fates of templates, if the last block in front of them ends at `cursor`. -/
def fatesFrom (a : Assembly) (origin : Option Text) (source : Text) :
    Nat → List Tagged → List (Tagged × Fate)
  | _, [] => []
  | cursor, t :: ts =>
    if t.content.start < cursor then (t, .error .nested) :: fatesFrom a origin source cursor ts
    else match a.readBlock origin source t with
      | .error e => (t, .error (.malformed e)) :: fatesFrom a origin source cursor ts
      | .ok b => (t, .ok b) :: fatesFrom a origin source t.content.stop ts

/-- Every template has one fate. -/
theorem map_fst_fatesFrom : (a.fatesFrom origin source cursor ts).map Prod.fst = ts := by
  fun_induction fatesFrom a origin source cursor ts <;> simp_all

/-- A template that has a fate is one of the templates. -/
theorem mem_of_mem_fatesFrom {fate : Fate} (h : (t, fate) ∈ a.fatesFrom origin source cursor ts) :
    t ∈ ts := by
  rw [← @map_fst_fatesFrom a origin source cursor ts]
  exact List.mem_map_of_mem h

/-- The document is read off the fates if the templates have a content. -/
theorem foldl_add_of_content (hts : ∀ t ∈ ts, t.contentSpan? = some t.content) (lines : LineMap)
    (p : Progress) :
    (ts.foldl (a.add origin lines source) p).blocks.map (fun b => (b.root, b.config)) =
        p.blocks.map (fun b => (b.root, b.config)) ++
          (a.fatesFrom origin source p.cursor ts).filterMap Fate.block? ∧
      (ts.foldl (a.add origin lines source) p).skipped =
        p.skipped ++ (a.fatesFrom origin source p.cursor ts).filterMap (Fate.skipped? lines) := by
  induction ts generalizing p with
  | nil => simp [fatesFrom]
  | cons t ts ih =>
      have ih := fun p => ih (fun u hu => hts u (List.mem_cons_of_mem _ hu)) p
      have hcontent := hts t List.mem_cons_self
      rw [List.foldl_cons, fatesFrom, add, hcontent]
      simp only
      have hskip : ∀ reason : SkipReason,
          Fate.skipped? lines (t, .error reason) = some ⟨lines.range t.content, reason⟩ := by
        simp [hcontent]
      by_cases hcursor : t.content.start < p.cursor
      · rw [if_pos hcursor, if_pos hcursor, List.filterMap_cons_none rfl,
          List.filterMap_cons_some (hskip _)]
        simpa [Progress.skip] using ih (p.skip lines t.content .nested)
      · rw [if_neg hcursor, if_neg hcursor]
        cases hread : a.readBlock origin source t with
        | error e =>
            simp only
            rw [List.filterMap_cons_none rfl, List.filterMap_cons_some (hskip _)]
            simpa [Progress.skip] using ih (p.skip lines t.content (.malformed e))
        | ok b =>
            obtain ⟨root, config⟩ := b
            simp only
            rw [List.filterMap_cons_some (Fate.block?_ok t _), List.filterMap_cons_none rfl,
              (ih _).1, (ih _).2]
            simp

/-- **The document is read off the fates**, in order. -/
theorem foldl_add (hts : ∀ t ∈ ts, t.IsProper) (lines : LineMap) (p : Progress) :
    (ts.foldl (a.add origin lines source) p).blocks.map (fun b => (b.root, b.config)) =
        p.blocks.map (fun b => (b.root, b.config)) ++
          (a.fatesFrom origin source p.cursor ts).filterMap Fate.block? ∧
      (ts.foldl (a.add origin lines source) p).skipped =
        p.skipped ++ (a.fatesFrom origin source p.cursor ts).filterMap (Fate.skipped? lines) :=
  foldl_add_of_content (fun t ht => (hts t ht).contentSpan?_eq) lines p

/-- A fate tells how the template was read, unless that was nested. -/
theorem readBlock_of_mem_fatesFrom {fate : Fate}
    (h : (t, fate) ∈ a.fatesFrom origin source cursor ts) :
    (∀ b, fate = .ok b → a.readBlock origin source t = .ok b) ∧
      ∀ e, fate = .error (.malformed e) → a.readBlock origin source t = .error e := by
  fun_induction fatesFrom a origin source cursor ts with
  | case1 => contradiction
  | case2 cursor u us hu ih =>
      rcases List.mem_cons.1 h with h | h
      · cases h
        simp
      · exact ih h
  | case3 cursor u us hu e he ih =>
      rcases List.mem_cons.1 h with h | h
      · cases h
        simp [he]
      · exact ih h
  | case4 cursor u us hu b hb ih =>
      rcases List.mem_cons.1 h with h | h
      · cases h
        simp [hb]
      · exact ih h

/-- **Which templates are nested**: those that start in front of the cursor, and those inside another
template that becomes a block. -/
theorem eq_nested_iff_of_mem_fatesFrom {fate : Fate} (hproper : ∀ t ∈ ts, t.IsProper)
    (hts : ts.Pairwise Tagged.StartsBefore) (h : (t, fate) ∈ a.fatesFrom origin source cursor ts) :
    fate = .error .nested ↔ t.content.start < cursor ∨
      ∃ r b, (r, .ok b) ∈ a.fatesFrom origin source cursor ts ∧ r ≠ t ∧ t.IsInside r := by
  induction ts generalizing cursor with
  | nil => contradiction
  | cons u us ih =>
      obtain ⟨hu, hus⟩ := List.forall_mem_cons.1 hproper
      obtain ⟨hstarts, hpairwise⟩ := List.pairwise_cons.1 hts
      have ih := fun {cursor} => @ih cursor hus hpairwise
      -- nothing that comes later is around the first template
      have hfirst : ∀ {cursor : Nat} {r : Tagged} {b : Root × BlockConfig},
          (r, .ok b) ∈ a.fatesFrom origin source cursor us → ¬ u.IsInside r := fun hr =>
        have hmem := mem_of_mem_fatesFrom hr
        Tagged.not_isInside hu (hus _ hmem) (hstarts _ hmem)
      rw [fatesFrom] at h ⊢
      by_cases hcursor : u.content.start < cursor
      · rw [if_pos hcursor] at h ⊢
        simp only [List.mem_cons, Prod.mk.injEq, reduceCtorEq, and_false, false_or] at h ⊢
        rcases h with ⟨rfl, rfl⟩ | h
        · simp [hcursor]
        · exact ih h
      · rw [if_neg hcursor] at h ⊢
        cases hread : a.readBlock origin source u with
        | error e =>
            simp only [hread, List.mem_cons, Prod.mk.injEq, reduceCtorEq, and_false, false_or] at h ⊢
            rcases h with ⟨rfl, rfl⟩ | h
            · refine iff_of_false (by simp) (not_or.2 ⟨hcursor, ?_⟩)
              rintro ⟨r, b, hr, -, hin⟩
              exact hfirst hr hin
            · exact ih h
        | ok b =>
            simp only [hread, List.mem_cons, Prod.mk.injEq, Except.ok.injEq] at h ⊢
            rcases h with ⟨rfl, rfl⟩ | h
            · refine iff_of_false (by simp) (not_or.2 ⟨hcursor, ?_⟩)
              rintro ⟨r, c, ⟨rfl, -⟩ | hr, hne, hin⟩
              · exact hne rfl
              · exact hfirst hr hin
            · -- the block just read moves the cursor: what lies in front of it is inside that block
              have ht := mem_of_mem_fatesFrom h
              have hin := Tagged.isInside_iff (hus t ht) hu (hstarts t ht)
              have hle := hu.le
              have hne : u ≠ t := by
                rintro rfl
                exact Nat.lt_irrefl _ (hstarts u ht).1
              rw [ih h, ← hin]
              constructor
              · rintro (hin | ⟨r, c, hr, hrest⟩)
                · exact Or.inr ⟨u, b, Or.inl ⟨rfl, rfl⟩, hne, hin⟩
                · exact Or.inr ⟨r, c, Or.inr hr, hrest⟩
              · rintro (hlt | ⟨r, c, ⟨rfl, -⟩ | hr, hrest⟩)
                · exact Or.inl (hin.2 (by omega))
                · exact Or.inl hrest.2
                · exact Or.inr ⟨r, c, hr, hrest⟩

/-- A template is malformed if the dialect rejects its style text. -/
theorem parse_eq_error_of_readBlock {e : ParseError} (h : a.readBlock origin source t = .error e) :
    a.dialect.parse origin (styleText source t) = .error e := by
  rw [styleText]
  cases hp : a.dialect.parse origin
      (Normalized.ofText (Extraction.ofTemplate t source).text t.base).text with
  | error e' => simpa [readBlock, hp, bind, Except.bind] using h
  | ok sheet =>
      simp only [readBlock, hp, bind, Except.bind, pure, Except.pure] at h
      split at h <;> contradiction

/-- Giving the text behind the last block to it leaves style sheets and configurations alone. -/
theorem map_closeBlocks (trailing : Text) (bs : List StyleBlock) :
    (closeBlocks trailing bs).map (fun b => (b.root, b.config)) =
      bs.map fun b => (b.root, b.config) := by
  fun_induction closeBlocks trailing bs <;> simp_all

/-- **Every template that holds style text has one fate.** It becomes a block, or it is set aside as
malformed because the dialect rejects its style text, or it is set aside as nested; the blocks and the
templates set aside are those, in order. And it is nested exactly if it is inside another template that
becomes a block: its content lies in the content of that one, or in its tag. -/
theorem fates_of_parse (ha : a.templates = findTemplates) (hts : findTemplates source = .ok ts) :
    ∃ (doc : Document) (fates : List (Tagged × Fate)), a.parse origin source = .ok doc ∧
      fates.map Prod.fst = ts.filter a.selects ∧ (ts.filter a.selects).Nodup ∧
      doc.blocks.map (fun b => (b.root, b.config)) = fates.filterMap Fate.block? ∧
      doc.skipped = fates.filterMap (Fate.skipped? (LineMap.ofText source)) ∧
      ∀ t fate, (t, fate) ∈ fates →
        (∀ b, fate = .ok b → a.readBlock origin source t = .ok b) ∧
        (∀ e, fate = .error (.malformed e) →
          a.dialect.parse origin (styleText source t) = .error e) ∧
        (fate = .error .nested ↔ ∃ r b, (r, .ok b) ∈ fates ∧ r ≠ t ∧ t.IsInside r) := by
  obtain ⟨hproper, hpairwise⟩ := pairwise_of_findTemplates hts
  have hproper : ∀ t ∈ ts.filter a.selects, t.IsProper := fun t ht =>
    hproper t (List.mem_of_mem_filter ht)
  have hpairwise := hpairwise.filter a.selects
  have hparse : a.parse origin source = .ok (a.documentOf origin source ts) := by
    rw [parse, ha, hts]
    rfl
  obtain ⟨hblocks, hskipped⟩ :=
    @foldl_add a origin source _ hproper (LineMap.ofText source) {}
  refine ⟨_, a.fatesFrom origin source 0 (ts.filter a.selects), hparse, map_fst_fatesFrom, ?_, ?_,
    hskipped, fun t fate hfate => ?_⟩
  · refine hpairwise.imp fun hstarts => ?_
    rintro rfl
    exact Nat.lt_irrefl _ hstarts.1
  · rw [documentOf, map_closeBlocks]
    exact hblocks
  · obtain ⟨hok, hmalformed⟩ := readBlock_of_mem_fatesFrom hfate
    exact ⟨hok, fun e he => parse_eq_error_of_readBlock (hmalformed e he),
      by simpa using eq_nested_iff_of_mem_fatesFrom hproper hpairwise hfate⟩

/-- A template in the tag of another one is set aside as nested, though it is not between the
backticks of that. -/
theorem fates_of_parse_templateInTag :
    let source : Text := "styled(css\x60a: b;\x60)\x60c: d;\x60".toList
    let r : Tagged :=
      { tag := .call (.identifier "styled".toList), span := ⟨0, 25⟩
        quasis := [⟨⟨19, 24⟩, ⟨1, 20⟩, ⟨1, 25⟩, "c: d;".toList⟩], holes := []
        leadingComments := [] }
    let t : Tagged :=
      { tag := .identifier "css".toList, span := ⟨7, 17⟩
        quasis := [⟨⟨11, 16⟩, ⟨1, 12⟩, ⟨1, 17⟩, "a: b;".toList⟩], holes := []
        leadingComments := [] }
    findTemplates source = .ok [r, t] ∧
      ∃ (doc : Document) (fates : List (Tagged × Fate)),
        parse { dialect := .css, matcher := {}, directive := [] } none source = .ok doc ∧
        fates.map Prod.fst = [r, t] ∧ (∃ b, (r, .ok b) ∈ fates) ∧ (t, .error .nested) ∈ fates ∧
        t.IsInTag r ∧ ¬ t.IsInContent r := by
  intro source r t
  -- the inner template is closed first
  have hclosed : (readToEnd (LineMap.ofText source) {} 0 source).map Nesting.closed = .ok [t, r] := by
    decide +kernel
  have hts : findTemplates source = .ok [r, t] := by
    cases hn : readToEnd (LineMap.ofText source) {} 0 source with
    | error e => simp [hn, Except.map] at hclosed
    | ok n =>
        have hcl : n.closed = [t, r] := by simpa [hn, Except.map] using hclosed
        refine findTemplates_eq_ok_iff.2 ⟨n, hn, ?_⟩
        rw [hcl, List.mergeSort]
        simp [List.MergeSort.Internal.splitInTwo, r, t]
  obtain ⟨doc, fates, hdoc, hmap, -, -, hskipped, hfates⟩ := @fates_of_parse
    { dialect := .css, matcher := {}, directive := [] } none source [r, t] rfl hts
  have hall : fates.map Prod.fst = [r, t] := hmap.trans (by decide +kernel)
  have hmem : ∀ x ∈ fates, x.1 = r ∨ x.1 = t := fun x hx => by
    simpa [hall] using List.mem_map_of_mem (f := Prod.fst) hx
  have hrun : doc.skipped = [⟨(LineMap.ofText source).range ⟨11, 16⟩, .nested⟩] := by
    obtain rfl := Except.ok.inj (hdoc.symm.trans (congrArg (Except.map _) hts))
    decide +kernel
  have hnested : (t, .error .nested) ∈ fates := by
    obtain ⟨⟨u, fate⟩, hu, hset⟩ := List.mem_filterMap.1
      (hskipped ▸ hrun ▸ List.mem_singleton_self (⟨(LineMap.ofText source).range ⟨11, 16⟩, .nested⟩ :
        SkippedBlock))
    rcases hmem _ hu with rfl | rfl
    · cases fate with
      | ok b => simp at hset
      | error reason => exact absurd hset (by simp [r, Tagged.contentSpan?, LineMap.range])
    · cases fate with
      | ok b => simp at hset
      | error reason =>
          obtain rfl : reason = .nested := by
            simpa [t, Tagged.contentSpan?] using hset
          exact hu
  have hin : t.IsInTag r ∧ ¬ t.IsInContent r := by
    refine ⟨⟨⟨19, 24⟩, ⟨11, 16⟩, rfl, rfl, by decide, by decide⟩, ?_⟩
    rintro ⟨c, d, hc, hd, hle, -⟩
    obtain rfl : ⟨19, 24⟩ = c := Option.some.inj hc
    obtain rfl : ⟨11, 16⟩ = d := Option.some.inj hd
    exact absurd hle (by decide)
  obtain ⟨s, b, hs, hne, -⟩ := (hfates t _ hnested).2.2.1 rfl
  obtain rfl : s = r := (hmem _ hs).resolve_right hne
  exact ⟨hts, doc, fates, hdoc, hall, ⟨b, hs⟩, hnested, hin⟩

end Assembly

end StyleBlocks
