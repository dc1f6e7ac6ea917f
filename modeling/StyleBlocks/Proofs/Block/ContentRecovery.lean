import StyleBlocks.Proofs.Block.Placement
import StyleBlocks.Proofs.Template.Written

/-!
# Nothing is lost on the way to style text

The content of a template becomes style text in two steps: its holes become placeholders, and its
indentation is taken away. Both can be undone with what is kept aside. The normalized text still
shows every placeholder, in order, and if the indentation is put back in front of its lines, the
dropped line in front of all, and the expressions in the place of the placeholders, it is the content
again.

## Main results

* `Normalized.takeBytes_append_indented`: the dropped line and the indentation put back.
* `Placeholder.substitute_texts`: the expressions put back.
* `Extraction.recovers_content`: a template's normalized text, and its content made of it again.
-/

namespace StyleBlocks

open Placeholder Template

namespace Normalized

/-- A normalized text with the indentation put back in front of every line from which some was
taken. -/
def indented (n : Normalized) : Text :=
  Text.joinLines (((Text.lines n.text).zipIdx 1).map fun l => n.indentations.front l.2 ++ l.1)

/-- **The dropped line and the indentation put back** give the text that was normalized. -/
theorem takeBytes_append_indented (text : Text) (base : Nat) :
    Text.takeBytes (ofText text base).dropped.bytes text ++ (ofText text base).indented = text := by
  obtain ⟨d, htext, hsize, -⟩ := ofText_spec text base
  have hdropped : Text.takeBytes (ofText text base).dropped.bytes text = d := by
    rw [← hsize]
    conv => lhs; rw [htext]
    exact Text.takeBytes_append _ _
  rw [hdropped, indented, Text.joinLines_zipIdx_map, ← htext]

end Normalized

namespace Placeholder

variable {es : List Text} {m : List Piece}

/-- Text that grows together is filled in as before. -/
theorem expand_consLiteral (t : Text) (ps : List Piece) :
    expand es (consLiteral t ps) = t ++ expand es ps := by
  cases ps with
  | nil => rfl
  | cons p ps => cases p <;> simp [consLiteral]

/-- The holes are filled in alike when neighbouring texts have grown together. -/
theorem expand_glue (m : List Piece) : expand es (glue m) = expand es m := by
  induction m with
  | nil => rfl
  | cons a m ih => cases a <;> simp [glue, expand_consLiteral, ih]

/-- **The expressions put back** in the text of atoms fill in the holes among these. -/
theorem substitute_texts (hm : ∀ a ∈ m, IsAtom a) (hu : Unmarked m) :
    substitute es (texts m) = expand es m := by
  rw [substitute, resolve, pieces_texts hm hu]
  exact expand_glue m

/-- The placeholders among atoms stand where they are found. -/
theorem read_foundFrom (hm : ∀ a ∈ m, IsAtom a) (p : Text) :
    (foundFrom (Text.byteSize p) m).map (fun f => (f.index, f.span.of? (p ++ texts m))) =
      (indices m).map fun i => (i, some (create i)) := by
  induction m generalizing p with
  | nil => rfl
  | cons a m ih =>
      have ih := ih (fun b hb => hm b (List.mem_cons_of_mem _ hb)) (p ++ a.text)
      rw [Text.byteSize_append, List.append_assoc] at ih
      cases hm a List.mem_cons_self with
      | char c => exact ih
      | pair c hc => exact ih
      | hole i hi =>
          have hslice := Text.slice?_append p (create i) (texts m)
          rw [Text.byteSize_append, List.append_assoc] at hslice
          rw [foundFrom, indices, List.map_cons, List.map_cons]
          exact congrArg₂ List.cons (congrArg _ hslice) ih

end Placeholder

namespace Extraction

/-- The placeholders in the normalized text of a template. -/
theorem indices_of_hosting {source : Text} {t : Tagged} {n : Normalized}
    (H : Hosting chars source t n) : indices H.atoms = List.range (t.quasis.length - 1) := by
  have hall : indices (atoms chars 0 t.quasis) = List.range' 0 (t.quasis.length - 1) :=
    indices_atoms fun q _ a ha => isLiteral_of_mem_chars ha
  rw [H.parts_eq, indices_append, indices_of_isLiteral fun a ha => isLiteral_of_mem_chars ha,
    List.nil_append, indices_indent] at hall
  rw [hall, List.range_eq_range']

/-- The extracted text with the expressions put back is the content of the template. -/
theorem substitute_ofTemplate {source front back : Text} {gaps : List Text} {t : Tagged}
    (hsize : Text.byteSize source < Word.signedLimit)
    (hlaid : Laid (LineMap.ofText source) front t.quasis gaps)
    (hsource : source = front ++ weave t.quasis gaps ++ '\x60' :: back)
    (hmark : ∀ q ∈ t.quasis, ¬ mark <:+: q.raw) :
    substitute (ofTemplate t source).expressions (ofTemplate t source).text =
      weave t.quasis gaps := by
  have htexts : ∀ q ∈ t.quasis, texts (chars q.raw) = q.raw := fun q _ => texts_chars q.raw
  have hatom : ∀ a ∈ atoms chars 0 t.quasis, IsAtom a :=
    isAtom_of_mem_atoms (fun q _ a ha => Relocation.isAtom_of_mem_chars ha)
      (length_le_indexLimit hlaid hsource hsize)
  have htext : texts (atoms chars 0 t.quasis) = (ofTemplate t source).text := texts_atoms htexts
  have hgaps : (ofTemplate t source).expressions = gaps := gaps_of_laid hlaid hsource
  rw [← htext, hgaps, substitute_texts hatom (unmarked_atoms htexts hmark)]
  exact expand_atoms hlaid htexts (fun q _ a ha => isLiteral_of_mem_chars ha) List.length_nil

/-- **Nothing is lost on the way to style text.** For a template that is found, whatever indentation
is taken away, the placeholders in the normalized text are those of its holes, in order, each of them
whole; and the dropped line, then the normalized text with its indentation, with the expressions in
the place of the placeholders, is the content of the template. The bound is the size of the texts
that fit into memory. -/
theorem recovers_content {source : Text} {ts : List Tagged} {t : Tagged}
    (hsize : Text.byteSize source < Word.signedLimit) (hts : findTemplates source = .ok ts)
    (ht : t ∈ ts) (hmark : ∀ q ∈ t.quasis, ¬ mark <:+: q.raw) (base : Nat) :
    let e := ofTemplate t source
    let n := Normalized.ofText e.text base
    (findAll n.text).map (fun f => (f.index, f.span.of? n.text)) =
        (List.range t.holes.length).map (fun i => (i, some (create i))) ∧
      ∃ content, t.contentSpan? = some content ∧ content.of? source =
        some (substitute e.expressions (Text.takeBytes n.dropped.bytes e.text ++ n.indented)) := by
  obtain ⟨H⟩ := nonempty_hosting (f := chars) (isIn_of_mem_findTemplates hts ht) hsize
    (fun q _ => texts_chars q.raw) (fun q _ a ha => Relocation.isAtom_of_mem_chars ha)
    (fun q _ a ha => isLiteral_of_mem_chars ha) hmark base
  have hlength := (isFramed_of_mem_findTemplates hts ht).inTurn.length_eq
  intro e n
  refine ⟨?_, _, contentSpan?_of_laid H.laid, ?_⟩
  · have hread := read_foundFrom H.isAtom []
    rw [List.nil_append, H.texts_atoms, indices_of_hosting H, hlength, Nat.add_sub_cancel] at hread
    have hfound : findAll n.text = foundFrom 0 H.atoms := by
      rw [← H.texts_atoms, findAll_texts H.isAtom H.unmarked]
    rw [hfound]
    exact hread
  · have hslice := Text.slice?_append H.front (weave t.quasis H.gaps) ('\x60' :: H.back)
    rw [← H.woven_eq] at hslice
    rw [Normalized.takeBytes_append_indented,
      substitute_ofTemplate hsize H.laid H.woven_eq hmark]
    exact hslice

/-- A dropped line, indentation, and a hole over two lines. -/
theorem recovers_content_twoLines :
    let source : Text := "css`\n  a: $\x7bx\n\x7d;\n`".toList
    let t : Tagged :=
      { tag := .identifier "css".toList, span := ⟨0, 18⟩
        quasis := [⟨⟨4, 10⟩, ⟨1, 5⟩, ⟨2, 6⟩, "\n  a: ".toList⟩, ⟨⟨15, 17⟩, ⟨3, 2⟩, ⟨4, 1⟩, ";\n".toList⟩]
        holes := [⟨⟨12, 14⟩, ⟨2, 8⟩⟩], leadingComments := [] }
    let e := ofTemplate t source
    let n := Normalized.ofText e.text 2
    findTemplates source = .ok [t] ∧ (∀ q ∈ t.quasis, ¬ mark <:+: q.raw) ∧
      (findAll n.text).map (fun f => (f.index, f.span.of? n.text)) = [(0, some (create 0))] ∧
      ∃ content, t.contentSpan? = some content ∧ content.of? source =
        some (substitute e.expressions (Text.takeBytes n.dropped.bytes e.text ++ n.indented)) := by
  intro source t
  have hts : findTemplates source = .ok [t] := by decide +kernel
  have hmark : ∀ q ∈ t.quasis, ¬ mark <:+: q.raw := by decide +kernel
  exact ⟨hts, hmark, recovers_content (by decide +kernel) hts (by simp) hmark 2⟩

end Extraction

end StyleBlocks
