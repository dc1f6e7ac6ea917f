import StyleBlocks.Proofs.Block.PlaceholderTokens
import StyleBlocks.Proofs.Document.Expressions

/-!
# Only placeholders that were put in are found

The placeholders that are found in the text of a template are those that were put in, unless a literal
part spells one, or so much of one that the slash behind it is enough. A comment is read as a
placeholder with blanks around its index, and the search does not take these. Without the mark in the
literal parts both agree: what is found is what was put in, and a comment that is read as a placeholder
is one of those, where it stands.

## Main results

* `Hosting.mem_inserted`: a comment of a printed block that is read as a placeholder was put in.
* `Assembly.findAll_eq_inserted_iff`: what is found in the text of a template is what was put in just if
  its literal parts are told apart from placeholders; comments are read as placeholders that were put
  in only, if the literal parts do not hold the mark.
-/

namespace StyleBlocks

open Placeholder Sheet Template

namespace Template.Tagged.IsIn

variable {source : Text} {t : Tagged}

/-- The text of a template as atoms, with every character of the literal parts as one of them. -/
theorem atoms_spec (hin : t.IsIn source) (hsize : Text.byteSize source < Word.signedLimit)
    (hmark : ∀ q ∈ t.quasis, ¬ mark <:+: q.raw) :
    (∀ a ∈ Extraction.atoms chars 0 t.quasis, IsAtom a) ∧
      Unmarked (Extraction.atoms chars 0 t.quasis) ∧
      texts (Extraction.atoms chars 0 t.quasis) = (Extraction.ofTemplate t source).text := by
  obtain ⟨front, gaps, back, hlaid, hsource⟩ := hin
  have htexts : ∀ q ∈ t.quasis, texts (chars q.raw) = q.raw := fun q _ => texts_chars q.raw
  exact ⟨Extraction.isAtom_of_mem_atoms (fun q _ a ha => Relocation.isAtom_of_mem_chars ha)
      (length_le_indexLimit hlaid hsource hsize),
    Extraction.unmarked_atoms htexts hmark, Extraction.texts_atoms htexts⟩

/-- **Without the mark in the literal parts**, what is found in the text of a template is what was put
in. -/
theorem findAll_eq_inserted (hin : t.IsIn source) (hsize : Text.byteSize source < Word.signedLimit)
    (hmark : ∀ q ∈ t.quasis, ¬ mark <:+: q.raw) :
    findAll (Extraction.ofTemplate t source).text = Extraction.inserted 0 0 t.quasis := by
  obtain ⟨hatom, hunmarked, htext⟩ := hin.atoms_spec hsize hmark
  rw [← htext, findAll_texts hatom hunmarked, Extraction.foundFrom_atoms]

/-- **A part of the text of a template that is read as a placeholder** was put in, where it stands. -/
theorem mem_inserted {front f back : Text} {i : Nat} (hin : t.IsIn source)
    (hsize : Text.byteSize source < Word.signedLimit) (hmark : ∀ q ∈ t.quasis, ¬ mark <:+: q.raw)
    (htext : (Extraction.ofTemplate t source).text = front ++ (f ++ back))
    (hread : readFragment? f = some i) :
    f = create i ∧
      ⟨i, ⟨Text.byteSize front, Text.byteSize front + Text.byteSize (create i)⟩⟩ ∈
        Extraction.inserted 0 0 t.quasis := by
  obtain ⟨hatom, hunmarked, htexts⟩ := hin.atoms_spec hsize hmark
  obtain ⟨u, v, hcut, rfl, hf⟩ :=
    exists_hole_of_readFragment? hatom hunmarked hread (htexts.trans htext)
  have hmem := mem_foundFrom 0 u i (create i) v
  rw [← hcut, Extraction.foundFrom_atoms, Nat.zero_add] at hmem
  exact ⟨hf, hmem⟩

end Template.Tagged.IsIn

/-- A comment among the fragments of a relocated style sheet stands in the text that its text was made
of, behind the dropped line and the fragments in front of it. -/
theorem Relocation.exists_eq_of_comment {r : Relocation} {g : Grammar} {root : Root} {text : Text}
    {base : Nat} {fs gs : List Fragment} {f : Fragment}
    (hindent : r.config.indentations = (Normalized.ofText text base).indentations)
    (hlines : r.lines = LineMap.ofText (Normalized.ofText text base).text)
    (h : Sheet.parse g (Normalized.ofText text base).text = .ok root)
    (hcut : Printer.root { overrides := .corrected } (r.root root) = fs ++ f :: gs)
    (howner : f.owner = some .comment) :
    ∃ d back, Text.byteSize d = (Normalized.ofText text base).dropped.bytes ∧
      text = d ++ Fragment.texts fs ++ (f.text ++ back) := by
  obtain ⟨nodes, after, hdrop, hroot⟩ := exists_nodes_of_root hindent hlines h
  obtain ⟨d, htext, hsize, -⟩ := Normalized.ofText_spec text base
  have hnotEnd : f ∉ Printer.emit .root (r.doubledFront root ++ after) := by
    intro hf
    rw [Printer.emit] at hf
    split at hf
    · contradiction
    · simp [List.mem_singleton.1 hf] at howner
  have hnodes : ∃ ws, nodes = fs ++ f :: ws := by
    rcases List.append_eq_append_iff.1 (hroot.symm.trans hcut) with ⟨w, -, hw⟩ | ⟨w, hw, hend⟩
    · exact absurd (by rw [hw]; simp) hnotEnd
    · cases w with
      | nil => exact absurd (by rw [← List.nil_append (Printer.emit _ _), ← hend]; simp) hnotEnd
      | cons e w =>
          obtain ⟨rfl, -⟩ := List.cons.inj hend
          exact ⟨w, hw⟩
  obtain ⟨ws, rfl⟩ := hnodes
  rw [← hsize, htext, Text.dropBytes_append] at hdrop
  refine ⟨d, Fragment.texts ws ++ after, hsize, ?_⟩
  conv => lhs; rw [htext, hdrop]
  simp [Fragment.texts]

/-! ### Documents -/

namespace Assembly

variable {origin : Option Text} {source : Text}

/-- **Only placeholders that were put in are found.** For every template that is found in a source,
what is found in its text is what was put in, with indices and positions, if and only if every literal
part with a hole behind it is told apart from a placeholder and the last one has none in it. Whatever
the dialect, the matcher and the directive: if the literal parts of a template do not hold the mark,
this is so, and a comment of a block read from it that is read as a placeholder is one that was put
in, where it stands. The bound is the size of the texts that fit into memory. -/
theorem findAll_eq_inserted_iff {dialect : Dialect} {matcher : Matcher} {directive : Text}
    {ts : List Tagged} (hsize : Text.byteSize source < Word.signedLimit)
    (hts : findTemplates source = .ok ts) :
    (∀ t ∈ ts,
      findAll (Extraction.ofTemplate t source).text = Extraction.inserted 0 0 t.quasis ↔
        (∀ q ∈ t.quasis.dropLast, IsToldApart q.raw) ∧
          ∀ q ∈ t.quasis.getLast?, findAll q.raw = []) ∧
    ∃ doc, parse { dialect := dialect, matcher := matcher, directive := directive } origin
        source = .ok doc ∧
      ∀ b ∈ doc.blocks, ∃ t ∈ ts, ∃ config, b.config = some config ∧
        readBlock { dialect := dialect, matcher := matcher, directive := directive } origin source
          t = .ok (b.root, config) ∧
        ((∀ q ∈ t.quasis, ¬ mark <:+: q.raw) →
          findAll (Extraction.ofTemplate t source).text = Extraction.inserted 0 0 t.quasis ∧
          ∀ fs f gs i, Printer.root { overrides := .corrected } b.root = fs ++ f :: gs →
            f.owner = some .comment → readFragment? f.text = some i →
              let start := config.frontBytes + Text.byteSize (Fragment.texts fs)
              f.text = create i ∧
                ⟨i, ⟨start, start + Text.byteSize (create i)⟩⟩ ∈
                  Extraction.inserted 0 0 t.quasis) := by
  constructor
  · intro t ht
    obtain ⟨front, gaps, back, hlaid, hsource⟩ := isIn_of_mem_findTemplates hts ht
    exact Extraction.foundFrom_joinFrom_iff (length_le_indexLimit hlaid hsource hsize)
  refine ⟨_, congrArg (Except.map _) hts, fun b hb => ?_⟩
  obtain ⟨t, ht, -, config, hconfig, hread⟩ := exists_readBlock_of_mem hb
  have hin := isIn_of_mem_findTemplates hts ht
  refine ⟨t, ht, config, hconfig, hread, fun hmark => ⟨hin.findAll_eq_inserted hsize hmark, ?_⟩⟩
  intro fs f gs i hcut howner hindex
  obtain ⟨front, gaps, back, hlaid, -⟩ := id hin
  obtain ⟨first, hfirst, -⟩ := hlaid.exists_head
  obtain ⟨r, sheet, hsheet, hroot, rfl, hlines, hindent, hbytes, -⟩ := readBlock_eq_ok rfl hfirst hread
  rw [hroot] at hcut
  obtain ⟨d, rest, hd, htext⟩ :=
    Relocation.exists_eq_of_comment hindent hlines hsheet hcut howner
  have hmem := hin.mem_inserted hsize hmark htext hindex
  rw [Text.byteSize_append, hd, ← hbytes] at hmem
  exact hmem

/-- A comment, and a hole behind it, whose placeholder is the second comment. -/
theorem findAll_eq_inserted_iff_comment :
    let source : Text := "css`/*a*/$\x7bx\x7d`".toList
    let t : Tagged :=
      { tag := .identifier "css".toList, span := ⟨0, 14⟩
        quasis := [⟨⟨4, 9⟩, ⟨1, 5⟩, ⟨1, 10⟩, "/*a*/".toList⟩, ⟨⟨13, 13⟩, ⟨1, 14⟩, ⟨1, 14⟩, []⟩]
        holes := [⟨⟨11, 12⟩, ⟨1, 12⟩⟩], leadingComments := [] }
    findTemplates source = .ok [t] ∧
      findAll (Extraction.ofTemplate t source).text = Extraction.inserted 0 0 t.quasis ∧
      Extraction.inserted 0 0 t.quasis = [⟨0, ⟨5, 21⟩⟩] ∧
      ∃ doc, parse { dialect := .css, matcher := {}, directive := [] } none source = .ok doc ∧
        ∃ b ∈ doc.blocks, ∃ f ∈ Printer.root { overrides := .corrected } b.root,
          f.owner = some .comment ∧ f.text = create 0 := by
  intro source t
  have hts : findTemplates source = .ok [t] := by decide +kernel
  have hmark : ∀ q ∈ t.quasis, ¬ mark <:+: q.raw := by decide +kernel
  obtain ⟨hiff, doc, hdoc, hblocks⟩ :=
    @findAll_eq_inserted_iff none source .css {} [] [t] (by decide +kernel) hts
  have hfound := (hiff t (List.mem_singleton_self t)).2 (by decide +kernel)
  refine ⟨hts, hfound, by decide +kernel, doc, hdoc, ?_⟩
  have hrun : (parse { dialect := .css, matcher := {}, directive := [] } none source).toOption.map
      (fun d => d.blocks.any fun b => (Printer.root { overrides := .corrected } b.root).any fun f =>
        decide (f.owner = some .comment ∧ readFragment? f.text = some 0)) = some true := by
    decide +kernel
  rw [hdoc, Except.toOption, Option.map_some, Option.some.injEq, List.any_eq_true] at hrun
  obtain ⟨b, hb, hfragments⟩ := hrun
  obtain ⟨f, hf, hdecide⟩ := List.any_eq_true.1 hfragments
  obtain ⟨howner, hread⟩ := of_decide_eq_true hdecide
  obtain ⟨t', ht', config, -, -, hcomments⟩ := hblocks b hb
  obtain rfl := List.mem_singleton.1 ht'
  obtain ⟨fs, gs, hcut⟩ := List.append_of_mem hf
  exact ⟨b, hb, f, hf, howner, ((hcomments hmark).2 fs f gs 0 hcut howner hread).1⟩

end Assembly

end StyleBlocks
