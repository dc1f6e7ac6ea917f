import StyleBlocks.Document.Assembly
import StyleBlocks.Proofs.Checked.HostScan
import StyleBlocks.Proofs.Checked.Normalization
import StyleBlocks.Proofs.Checked.Parsing
import StyleBlocks.Proofs.Checked.Printing
import StyleBlocks.Proofs.Checked.Relocation
import StyleBlocks.Proofs.Document.HostAccount
import StyleBlocks.Proofs.Template.Reported

/-!
# Assembling with checked access

The host text in front of a block is cut from the source, from the end of the content before it to the end
of the line dropped from its own. What has been assembled ends at a boundary: the start of the source, or
the end of a content. A dropped line lies in the content of its template, so it ends at a boundary behind
that.

With this every step of the program has been written with checked access. `runs_without_fault` puts the
parts together.

## Main results

* `Checked.readBlock_eq`: reading a block does not fault.
* `Checked.add_eq`: adding a template to what has been assembled up to a boundary does not fault, and
  assembles up to a boundary.
* `Checked.runs_without_fault`: no input leads to a fault, in parsing a document, in listing its style
  texts and in printing it.
-/

namespace StyleBlocks.Checked

open Sheet Template

/-! ### Assembling -/

section

variable (a : Assembly) (origin : Option Text) (source : Text) (lines : LineMap)

/-- The style sheet of a template in its place in the host, and how its text came about. -/
def readBlock (t : Tagged) : Option (Except Sheet.ParseError (Root × BlockConfig)) := do
  let extracted := Extraction.ofTemplate t source
  let normalized ← normalize extracted.text t.base
  let config : BlockConfig :=
    { hostEdges := { front := normalized.dropped }
      indentations := normalized.indentations
      expressions := extracted.expressions }
  match ← parseSheet a.dialect.grammar normalized.text with
  | .error e => return .error e
  | .ok sheet =>
    let sheet := { sheet with origin := origin }
    match Relocation.ofTemplate? t normalized.text config with
    | some r => return .ok (← root r sheet, config)
    | none => return .ok (sheet, config)

/-- Sets a template with the given content aside. -/
def skip (content : Span) (reason : SkipReason) (p : Assembly.Progress) : Option Assembly.Progress := do
  return { p with skipped := p.skipped ++ [⟨← range lines content, reason⟩] }

/-- Adds a template, as a block or as one that is set aside. -/
def add (p : Assembly.Progress) (t : Tagged) : Option Assembly.Progress := do
  match t.contentSpan? with
  | none => return p
  | some content =>
    if content.start < p.cursor then skip lines content .nested p
    else match ← readBlock a origin source t with
    | .error e => skip lines content (.malformed e) p
    | .ok (root, config) =>
      let leading ← Text.slice? p.cursor (content.start + config.frontBytes) source
      let block : StyleBlock := { root := root, config := some config, leading := leading }
      return { p with cursor := content.stop, blocks := p.blocks ++ [block] }

/-- The document of a source with the given templates. -/
def documentOf (templates : List Tagged) : Option Document := do
  let p ← (templates.filter a.selects).foldlM (add a origin source (LineMap.ofText source)) {}
  let blocks ←
    if p.blocks.isEmpty then some []
    else (tail p.cursor source).map fun trailing => Assembly.closeBlocks trailing p.blocks
  return { source := source, blocks := blocks, skipped := p.skipped }

/-- The document of a host file. -/
def parse : Option (Except ScanError Document) := do
  match ← findTemplates source with
  | .error e => return .error e
  | .ok ts => return .ok (← documentOf a origin source ts)

/-- The style text of a template, if it has literal parts. -/
def normalizedBlock? (t : Tagged) : Option (Option NormalizedBlock) := do
  match t.contentSpan? with
  | none => return none
  | some content =>
    let extracted := Extraction.ofTemplate t source
    let normalized ← normalize extracted.text t.base
    return some {
      range := ← range lines content
      text := normalized.text
      expressions := extracted.expressions }

/-- The style text of all templates that hold such. -/
def normalizedBlocks : Option (Except ScanError (List NormalizedBlock)) := do
  match ← findTemplates source with
  | .error e => return .error e
  | .ok ts =>
    let blocks ← (ts.filter a.selects).mapM (normalizedBlock? source (LineMap.ofText source))
    return .ok (blocks.filterMap id)

end

/-! ### Assembling does not fault -/

/-- From a boundary on there is text. -/
theorem tail_of_isBoundary {t : Text} {o : Nat} (h : Text.IsBoundary t o) :
    tail o t = some (Text.dropBytes o t) := by
  have hcut := tail_append (Text.takeBytes o t) (Text.dropBytes o t)
  rwa [Text.takeBytes_append_dropBytes, h] at hcut

section

variable (a : Assembly) (origin : Option Text) {source : Text} {lines : LineMap} {t : Tagged}
  {p : Assembly.Progress} {ts : List Tagged}

/-- **Reading a block does not fault.** -/
theorem readBlock_eq (h : t.IsIn source) :
    readBlock a origin source t = some (a.readBlock origin source t) := by
  obtain ⟨front, gaps, back, hlaid, -⟩ := h
  simp only [readBlock, Assembly.readBlock, normalize_eq, parseSheet_eq, Option.bind_eq_bind,
    Option.bind_some, Dialect.parse]
  cases Sheet.parse a.dialect.grammar _ with
  | error e => rfl
  | ok sheet =>
      simp only [Except.map, bind, Except.bind]
      cases hr : Relocation.ofTemplate? t _ _ with
      | none => rfl
      | some r =>
          simp only [root_eq (isForward_of_laid (isAscending_ofText source) hlaid hr)]
          rfl

/-- A template is set aside without a fault. -/
theorem skip_eq (hlines : IsAscending lines) (content : Span) (reason : SkipReason) :
    skip lines content reason p = some (p.skip lines content reason) := by
  rw [skip, range_eq hlines]
  rfl

/-- **Adding a template does not fault**, and what has been assembled ends at a boundary again. -/
theorem add_eq (hlines : IsAscending lines) (ht : t.IsIn source)
    (hp : Text.IsBoundary source p.cursor) :
    add a origin source lines p t = some (a.add origin lines source p t) ∧
      Text.IsBoundary source (a.add origin lines source p t).cursor := by
  rw [add, Assembly.add]
  cases hspan : t.contentSpan? with
  | none => exact ⟨rfl, hp⟩
  | some content =>
      simp only
      split
      · exact ⟨skip_eq hlines _ _, hp⟩
      next hcursor =>
      rw [Nat.not_lt] at hcursor
      simp only [readBlock_eq a origin ht, Option.bind_eq_bind, Option.bind_some]
      cases hread : a.readBlock origin source t with
      | error e => exact ⟨skip_eq hlines _ _, hp⟩
      | ok r =>
          obtain ⟨root, config⟩ := r
          obtain ⟨front, dropped, body, back, hsource, hcontent, hbytes⟩ :=
            Assembly.exists_of_readBlock ht hread
          obtain rfl := Option.some.inj (hspan.symm.trans hcontent)
          have hdropped : Text.IsBoundary source (Text.byteSize (front ++ dropped)) := by
            rw [hsource, List.append_assoc]
            exact isBoundary_append _ _
          have hstop : Text.IsBoundary source (Text.byteSize (front ++ dropped ++ body)) := by
            rw [hsource]
            exact isBoundary_append _ _
          rw [Text.byteSize_append, ← hbytes] at hdropped
          have hslice : Text.slice? p.cursor (Text.byteSize front + config.frontBytes) source =
              some (Text.slice p.cursor (Text.byteSize front + config.frontBytes) source) :=
            if_pos ⟨hcursor.trans (Nat.le_add_right _ _), hp, hdropped⟩
          exact ⟨by simp [hslice], hstop⟩

/-- **Assembling does not fault**, however many templates there are. -/
theorem foldlM_add (hlines : IsAscending lines) (hts : ∀ t ∈ ts, t.IsIn source)
    (hp : Text.IsBoundary source p.cursor) :
    ts.foldlM (add a origin source lines) p = some (ts.foldl (a.add origin lines source) p) ∧
      Text.IsBoundary source (ts.foldl (a.add origin lines source) p).cursor := by
  induction ts generalizing p with
  | nil => exact ⟨rfl, hp⟩
  | cons t ts ih =>
      obtain ⟨ht, hts⟩ := List.forall_mem_cons.1 hts
      obtain ⟨hadd, hnext⟩ := add_eq a origin hlines ht hp
      rw [List.foldlM_cons, hadd]
      exact ih hts hnext

/-- Templates of a source are assembled to a document without a fault. -/
theorem documentOf_eq (hts : ∀ t ∈ ts, t.IsIn source) :
    documentOf a origin source ts = some (a.documentOf origin source ts) := by
  have hfilter : ∀ t ∈ ts.filter a.selects, t.IsIn source :=
    fun t ht => hts t (List.mem_of_mem_filter ht)
  obtain ⟨hfold, hcursor⟩ := foldlM_add a origin (p := {}) (isAscending_ofText source) hfilter
    (isBoundary_append [] source)
  rw [documentOf, hfold, Assembly.documentOf]
  generalize (ts.filter a.selects).foldl _ _ = p at hcursor ⊢
  simp only [Option.bind_eq_bind, Option.bind_some, tail_of_isBoundary hcursor]
  cases p.blocks <;> rfl

/-- The block of a template is normalized without a fault. -/
theorem normalizedBlock?_eq (hlines : IsAscending lines) (t : Tagged) :
    normalizedBlock? source lines t = some (Assembly.normalizedBlock? lines source t) := by
  rw [normalizedBlock?, Assembly.normalizedBlock?]
  cases t.contentSpan? <;> simp [normalize_eq, range_eq hlines]

/-- **Parsing a document does not fault.** -/
theorem parse_eq (ha : a.templates = Template.findTemplates) :
    parse a origin source = some (a.parse origin source) := by
  rw [parse, findTemplates_eq, Assembly.parse, ha]
  cases hts : Template.findTemplates source with
  | error e => rfl
  | ok ts =>
      simp only [Option.bind_eq_bind, Option.bind_some,
        documentOf_eq a origin fun t ht => isIn_of_mem_findTemplates hts ht]
      rfl

/-- **Listing style texts does not fault.** -/
theorem normalizedBlocks_eq (ha : a.templates = Template.findTemplates) :
    normalizedBlocks a source = some (a.normalizedBlocks source) := by
  have hblock : normalizedBlock? source (LineMap.ofText source) =
      fun t => pure (Assembly.normalizedBlock? (LineMap.ofText source) source t) :=
    funext (normalizedBlock?_eq (isAscending_ofText source))
  rw [normalizedBlocks, findTemplates_eq, Assembly.normalizedBlocks, ha, hblock]
  cases Template.findTemplates source with
  | error e => rfl
  | ok ts =>
      simp only [List.mapM_pure, Option.bind_eq_bind, Option.bind_some]
      simp [Except.map, List.filterMap_map]

end

/-- **No input leads to a fault.** Take the program with every cut checked to be at boundaries in order,
every lookup checked to be of an index that is there, and every number checked to be at least what is
taken from it. For every source and every configuration of dialect, matcher and directive, parsing the
document and listing its style texts give what they give without the checks, errors included, and so does
printing any document, the parsed one among them. -/
theorem runs_without_fault (d : Dialect) (m : Matcher) (directive : Text) (origin : Option Text)
    (source : Text) :
    parse { dialect := d, matcher := m, directive := directive } origin source =
        some (Assembly.parse { dialect := d, matcher := m, directive := directive } origin source) ∧
      normalizedBlocks { dialect := d, matcher := m, directive := directive } source =
        some (Assembly.normalizedBlocks
          { dialect := d, matcher := m, directive := directive } source) ∧
      ∀ document : Document, fragments document = some document.fragments :=
  ⟨parse_eq _ origin rfl, normalizedBlocks_eq _ rfl, fragments_eq⟩

end StyleBlocks.Checked
