import StyleBlocks.Proofs.Block.NodePlaces
import StyleBlocks.Proofs.Document.Emission
import StyleBlocks.Proofs.Document.RoundTrip

/-!
# The ranges of a document's nodes

Every style sheet of a document, and every node in it, has a range in the host. The range lies in the
content of the template, its ends are boundaries of the host text in order, and its span and its
positions name the same part of that text. The ranges nest as the nodes do.

## Main results

* `Assembly.nodesIn_of_readBlock`: the nodes of a block stand in the content of its template.
* `Assembly.nodesIn_of_mem_blocks`: so do those of every block of a document.
-/

namespace StyleBlocks

open Placeholder Sheet Template

/-- A range in a host text **lies in** a span of it: it is located there, and its span and its positions
name the same part. -/
structure Range.LiesIn (source : Text) (s : Span) (a : Range) : Prop where
  located : a.IsLocated source
  agrees : a.Agrees source
  start_le : s.start ≤ a.span.start
  le_stop : a.span.stop ≤ s.stop

/-- A style sheet stands in a span of a host text, its nodes nest within its range, and each of them
stands in the span. -/
structure Sheet.Root.NodesIn (source : Text) (s : Span) (root : Root) : Prop where
  nest : ∃ a, root.source = some a ∧ a.LiesIn source s ∧
    Nest (Range.LiesIn source s) a.span.start a.span.stop root.nodes
  descendants : ∀ n ∈ root.descendants, ∃ a, n.source? = some a ∧ a.LiesIn source s

namespace Assembly

variable {a : Assembly} {origin : Option Text} {source : Text} {t : Tagged}

/-- **The nodes of a block stand in the content of its template**, nested as they are in the style
sheet. -/
theorem nodesIn_of_readBlock {root : Root} {config : BlockConfig}
    (hsize : Text.byteSize source < Word.signedLimit) (hin : t.IsIn source)
    (hmark : ∀ q ∈ t.quasis, ¬ mark <:+: q.raw)
    (h : a.readBlock origin source t = .ok (root, config)) :
    ∃ content, t.contentSpan? = some content ∧ root.NodesIn source content := by
  obtain ⟨H⟩ := nonempty_hosting (f := chars) hin hsize (fun q _ => texts_chars q.raw)
    (fun q _ a ha => Relocation.isAtom_of_mem_chars ha)
    (fun q _ a ha => isLiteral_of_mem_chars ha) hmark t.base
  obtain ⟨first, hfirst, -⟩ := H.laid.exists_head
  obtain ⟨r, sheet, hsheet, hr, rfl, rfl⟩ := exists_ofTemplate?_of_readBlock rfl hfirst h
  obtain ⟨b, hb, hlocated, hstart, hstop, hnest⟩ :=
    Relocation.nest_root hsize H rfl rfl rfl rfl hr hsheet
  have hcontent := contentSpan?_of_laid H.laid
  generalize Text.byteSize H.front = front at hstart hcontent
  generalize Text.byteSize (H.front ++ weave t.quasis H.gaps) = back at hstop hcontent
  have hnodes : Nest (Range.LiesIn source ⟨front, back⟩) b.span.start b.span.stop
      (r.root sheet).nodes :=
    hnest.imp hstart hstop fun c hc hlo hhi => ⟨hc, hc.agrees, hlo, hhi⟩
  refine ⟨_, hcontent, ⟨b, hb, ⟨hlocated, hlocated.agrees, hstart, hstop⟩, hnodes⟩, fun n hn => ?_⟩
  obtain ⟨c, hc, hlies, -⟩ := Node.forall_mem_preorderAll _ hnodes n hn
  exact ⟨c, hc, hlies⟩

/-- **The nodes of every block of a document** stand in the content of the template that the block was
read from: each range is in order, lies within that content and on boundaries, and names the same part
of the source by its span and its positions; ranges of siblings stand in order and do not overlap, and
the range of a node lies within that of its parent. The bound is the size of the texts that fit into
memory. -/
theorem nodesIn_of_mem_blocks {dialect : Dialect} {matcher : Matcher} {directive : Text}
    {ts : List Tagged} (hsize : Text.byteSize source < Word.signedLimit)
    (hts : findTemplates source = .ok ts)
    (hmark : ∀ t ∈ ts,
      selects { dialect := dialect, matcher := matcher, directive := directive } t = true →
        ∀ q ∈ t.quasis, ¬ mark <:+: q.raw) :
    ∃ doc, parse { dialect := dialect, matcher := matcher, directive := directive } origin
        source = .ok doc ∧
      ∀ b ∈ doc.blocks, ∃ t ∈ ts, ∃ config content, b.config = some config ∧
        readBlock { dialect := dialect, matcher := matcher, directive := directive } origin source
          t = .ok (b.root, config) ∧
        t.contentSpan? = some content ∧ b.root.NodesIn source content := by
  refine ⟨_, congrArg (Except.map _) hts, fun b hb => ?_⟩
  obtain ⟨t, ht, hsel, config, hconfig, hread⟩ := exists_readBlock_of_mem hb
  obtain ⟨content, hcontent, hnodes⟩ :=
    nodesIn_of_readBlock hsize (isIn_of_mem_findTemplates hts ht) (hmark t ht hsel) hread
  exact ⟨t, ht, config, content, hconfig, hread, hcontent, hnodes⟩

/-- Two nodes that meet within a hole: a comment ends with the slash of its placeholder. -/
theorem nodesIn_of_mem_blocks_splitHole :
    let source : Text := "css`/*a*$\x7bx\x7d: b`".toList
    ∃ doc, parse { dialect := .css, matcher := {}, directive := [] } none source = .ok doc ∧
      ∃ b ∈ doc.blocks,
        b.root.nodes.map (fun n => n.source?.map Range.span) = [some ⟨4, 9⟩, some ⟨9, 15⟩] ∧
        b.root.NodesIn source ⟨4, 15⟩ := by
  intro source
  let t : Tagged :=
    { tag := .identifier "css".toList, span := ⟨0, 16⟩
      quasis :=
        [⟨⟨4, 8⟩, ⟨1, 5⟩, ⟨1, 9⟩, "/*a*".toList⟩, ⟨⟨12, 15⟩, ⟨1, 13⟩, ⟨1, 16⟩, ": b".toList⟩]
      holes := [⟨⟨10, 11⟩, ⟨1, 11⟩⟩], leadingComments := [] }
  have hts : findTemplates source = .ok [t] := by decide +kernel
  have hmark : ∀ q ∈ t.quasis, ¬ mark <:+: q.raw := by decide +kernel
  obtain ⟨doc, hdoc, hall⟩ := @nodesIn_of_mem_blocks none source .css {} [] [t]
    (by decide +kernel) hts fun u hu _ => List.mem_singleton.1 hu ▸ hmark
  have hrun : (parse { dialect := .css, matcher := {}, directive := [] } none source).toOption.map
      (fun d => d.blocks.map fun b => b.root.nodes.map fun n => n.source?.map Range.span) =
      some [[some ⟨4, 9⟩, some ⟨9, 15⟩]] := by
    decide +kernel
  rw [hdoc, Except.toOption, Option.map_some, Option.some.injEq, List.map_eq_singleton_iff] at hrun
  obtain ⟨b, hb, hspans⟩ := hrun
  have hmem : b ∈ doc.blocks := hb ▸ List.mem_singleton_self b
  obtain ⟨u, hu, -, content, -, -, hcontent, hnodes⟩ := hall b hmem
  obtain rfl := List.mem_singleton.1 hu
  obtain rfl : ⟨4, 15⟩ = content := Option.some.inj hcontent
  exact ⟨doc, hdoc, b, hmem, hspans, hnodes⟩

end Assembly

end StyleBlocks
