import StyleBlocks.Proofs.Block.Extracted
import StyleBlocks.Proofs.Template.Reported

/-!
# A template and its normalized text

`Hosting` puts together what is known of a template in its source and of the normalized text that
was made of it: the source is the text in front, the dropped line and the indentation of the first
line, the atoms of the normalized text with their indentation and their holes filled in, and a
backtick with what follows it.

## Main results

* `nonempty_hosting`: a template that lies in a source is hosted by it.
-/

namespace StyleBlocks

open Placeholder Template

/-- How a source **hosts** the normalized text of a template, whose literal parts are split into
atoms by `f`. -/
structure Hosting (f : Text → List Piece) (source : Text) (t : Tagged) (n : Normalized) where
  /-- What stands in front of the template's content. -/
  front : Text
  /-- The dropped line. -/
  dropped : Text
  /-- The atoms of the normalized text. -/
  atoms : List Piece
  /-- The texts of the holes. -/
  gaps : List Text
  /-- What stands behind the closing backtick. -/
  back : Text
  laid : Laid (LineMap.ofText source) front t.quasis gaps
  woven_eq : source = front ++ weave t.quasis gaps ++ '\x60' :: back
  source_eq : source = front ++ (dropped ++ n.indentations.front 1) ++
    expand gaps (indent n.indentations.front 1 atoms) ++ '\x60' :: back
  parts_eq : Extraction.atoms f 0 t.quasis =
    chars (dropped ++ n.indentations.front 1) ++ indent n.indentations.front 1 atoms
  texts_atoms : texts atoms = n.text
  isAtom : ∀ a ∈ atoms, IsAtom a
  sublist : atoms.Sublist (Extraction.atoms f 0 t.quasis)
  unmarked : Unmarked atoms
  byteSize_dropped : Text.byteSize dropped = n.dropped.bytes
  breaks_dropped : dropped.breaks = n.dropped.lines
  atLineStart_dropped : Text.AtLineStart dropped
  expressions_eq : (Extraction.ofTemplate t source).expressions = gaps

namespace Hosting

variable {f : Text → List Piece} {source : Text} {t : Tagged} {n : Normalized}
  (H : Hosting f source t n)

/-- What stands in the source in front of some atoms of the normalized text, and for these. -/
def upTo (u : List Piece) : Text :=
  H.front ++ (H.dropped ++ n.indentations.front 1) ++
    expand H.gaps (indent n.indentations.front 1 u)

/-- A cut between atoms of the normalized text. -/
theorem text_eq {u v : List Piece} (h : H.atoms = u ++ v) : n.text = texts u ++ texts v := by
  rw [← H.texts_atoms, h, texts_append]

/-- A cut between atoms of the normalized text is a cut of the source. -/
theorem source_eq_upTo {u v : List Piece} (h : H.atoms = u ++ v) :
    source = H.upTo u ++
      (expand H.gaps (indent n.indentations.front (1 + (texts u).breaks) v) ++
        '\x60' :: H.back) := by
  have hsource := H.source_eq
  rw [h, indent_append fun a ha => H.isAtom a (by simp [h, ha]), expand_append] at hsource
  refine hsource.trans ?_
  simp only [upTo, List.append_assoc]

end Hosting

/-- A template of a source that fits into memory has no more parts than placeholders can count. -/
theorem length_le_indexLimit {lines : LineMap} {source front back : Text} {qs : List Quasi}
    {gs : List Text} (h : Laid lines front qs gs)
    (hsource : source = front ++ weave qs gs ++ '\x60' :: back)
    (hsize : Text.byteSize source < Word.signedLimit) : 0 + qs.length ≤ indexLimit := by
  have hle := h.length_le
  have hbytes := congrArg Text.byteSize hsource
  simp only [Text.byteSize_append] at hbytes
  rw [indexLimit, Word.count_eq]
  omega

/-- **A template that lies in a source is hosted by it**, whatever indentation is taken away, if
none of its literal parts holds the mark of placeholders. -/
theorem nonempty_hosting {f : Text → List Piece} {source : Text} {t : Tagged}
    (hin : t.IsIn source) (hsize : Text.byteSize source < Word.signedLimit)
    (htexts : ∀ q ∈ t.quasis, texts (f q.raw) = q.raw)
    (hatom : ∀ q ∈ t.quasis, ∀ a ∈ f q.raw, IsAtom a)
    (hlit : ∀ q ∈ t.quasis, ∀ a ∈ f q.raw, a.isLiteral = true)
    (hmark : ∀ q ∈ t.quasis, ¬ mark <:+: q.raw) (base : Nat) :
    Nonempty (Hosting f source t (.ofText (Extraction.ofTemplate t source).text base)) := by
  obtain ⟨front, gaps, back, hlaid, hsource⟩ := hin
  have hparts := Extraction.isAtom_of_mem_atoms hatom (length_le_indexLimit hlaid hsource hsize)
  have hunmarked : Unmarked (Extraction.atoms f 0 t.quasis) :=
    Extraction.unmarked_atoms htexts hmark
  have htext : texts (Extraction.atoms f 0 t.quasis) = (Extraction.ofTemplate t source).text :=
    Extraction.texts_atoms htexts
  have hexpand := Extraction.expand_atoms hlaid htexts hlit List.length_nil
  obtain ⟨d, m, hm, hmtext, hdsize, hdbreaks, hdline, hsub⟩ := exists_normalized hparts base
  rw [htext] at hm hmtext hdsize hdbreaks
  have hmatom : ∀ a ∈ m, IsAtom a := fun a ha => hparts a (hsub.subset ha)
  refine ⟨{
    front := front, dropped := d, atoms := m, gaps := gaps, back := back, laid := hlaid
    woven_eq := hsource
    source_eq := ?_, parts_eq := hm, texts_atoms := hmtext, isAtom := hmatom, sublist := hsub
    unmarked := ?_, byteSize_dropped := hdsize, breaks_dropped := hdbreaks
    atLineStart_dropped := hdline, expressions_eq := ?_ }⟩
  · rw [List.nil_append, hm, expand_append, expand_chars] at hexpand
    conv => lhs; rw [hsource, ← hexpand]
    simp only [List.append_assoc]
  · rw [hm] at hunmarked
    exact .of_indent hmatom (hunmarked.of_infix (List.suffix_append _ _).isInfix)
  · exact Extraction.gaps_of_laid hlaid hsource

end StyleBlocks
