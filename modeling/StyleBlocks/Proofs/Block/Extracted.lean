import StyleBlocks.Block.Extraction
import StyleBlocks.Proofs.Block.AtomIndent
import StyleBlocks.Proofs.Block.Reindent
import StyleBlocks.Proofs.Template.Layout

/-!
# The atoms of a template

The style text of a template is the text of atoms: those of its literal parts, with a placeholder
for every hole. Filling in the texts of the holes gives what stands in the source, and taking
indentation away leaves the text of atoms.

## Main results

* `Extraction.texts_atoms`: the extracted text is the text of the atoms.
* `Extraction.expand_atoms`: the atoms, filled in, are what stands in the source.
* `Placeholder.exists_normalized`: the atoms of the normalized text.
-/

namespace StyleBlocks

open Placeholder Template

namespace Placeholder

/-- The texts of pieces, with the texts of the holes filled in. -/
def expand (es : List Text) (m : List Piece) : Text :=
  m.flatMap (Piece.resolve id es)

@[simp] theorem expand_nil (es : List Text) : expand es [] = [] := rfl

@[simp] theorem expand_cons (es : List Text) (a : Piece) (m : List Piece) :
    expand es (a :: m) = a.resolve id es ++ expand es m := rfl

/-- The holes are filled in piece by piece. -/
@[simp] theorem expand_append (es : List Text) (u v : List Piece) :
    expand es (u ++ v) = expand es u ++ expand es v :=
  List.flatMap_append

/-- Without placeholders nothing is filled in. -/
theorem expand_of_isLiteral {es : List Text} {m : List Piece} (hm : ∀ a ∈ m, a.isLiteral = true) :
    expand es m = texts m := by
  induction m with
  | nil => rfl
  | cons a m ih =>
      rw [expand_cons, texts_cons, ih fun b hb => hm b (List.mem_cons_of_mem _ hb)]
      have ha := hm a List.mem_cons_self
      cases a with
      | literal t => rfl
      | hole i t => contradiction

@[simp] theorem resolve_literal (es : List Text) (t : Text) :
    (Piece.literal t).resolve id es = t := rfl

/-- There are no holes to fill in among the characters of a text. -/
@[simp] theorem expand_chars (es : List Text) (t : Text) : expand es (chars t) = t := by
  rw [expand_of_isLiteral fun a ha => isLiteral_of_mem_chars ha, texts_chars]

/-- A run of texts lies in front of a placeholder or behind it. -/
theorem infix_or_infix_of_hole {lits u v : List Piece} {i : Nat} {t : Text}
    (hl : ∀ a ∈ lits, a.isLiteral = true) (h : lits <:+: u ++ .hole i t :: v) :
    lits <:+: u ∨ lits <:+: v := by
  obtain ⟨p, s, h⟩ := h
  have hhole : Piece.hole i t ∉ lits := fun hm => by simpa [Piece.isLiteral] using hl _ hm
  rcases List.append_eq_append_iff.1 h with ⟨w, rfl, -⟩ | ⟨w, hw, hs⟩
  · exact Or.inl ⟨p, w, rfl⟩
  · cases w with
    | nil =>
        rw [List.append_nil] at hw
        exact Or.inl ⟨p, [], by rw [hw, List.append_nil]⟩
    | cons b w =>
        obtain ⟨rfl, rfl⟩ : Piece.hole i t = b ∧ v = w ++ s := by simpa using hs
        rcases List.append_eq_append_iff.1 hw with ⟨x, -, hx⟩ | ⟨x, -, hx⟩
        · exact absurd (by rw [hx]; simp) hhole
        · cases x with
          | nil => exact absurd (by rw [← List.nil_append lits, ← hx]; simp) hhole
          | cons c x =>
              obtain ⟨-, rfl⟩ := List.cons.inj hx
              exact Or.inr ⟨x, s, rfl⟩

/-- Atoms on both sides of a placeholder do not make up another one. -/
theorem Unmarked.append_hole {u v : List Piece} {i : Nat} {t : Text} (hu : Unmarked u)
    (hv : Unmarked v) : Unmarked (u ++ .hole i t :: v) := by
  intro lits hlits hl
  rcases infix_or_infix_of_hole hl hlits with h | h
  · exact hu lits h hl
  · exact hv lits h hl

/-- Texts that do not hold the mark. -/
theorem unmarked_of_notMem {m : List Piece} (h : ¬ mark <:+: texts m) : Unmarked m := by
  rintro lits ⟨u, v, rfl⟩ - hmark
  refine h (hmark.trans ⟨texts u, texts v, ?_⟩)
  rw [texts_append, texts_append]

end Placeholder

namespace Extraction

/-- The atoms of literal parts, split by `f`, with placeholders from the given index on between
them. -/
def atoms (f : Text → List Piece) (index : Nat) : List Quasi → List Piece
  | [] => []
  | [q] => f q.raw
  | q :: r :: qs => f q.raw ++ .hole index (create index) :: atoms f (index + 1) (r :: qs)

section

variable {f : Text → List Piece} {index : Nat} {qs : List Quasi}

/-- **The extracted text is the text of the atoms.** -/
theorem texts_atoms (hf : ∀ q ∈ qs, texts (f q.raw) = q.raw) :
    texts (atoms f index qs) = joinFrom index qs := by
  fun_induction joinFrom index qs with
  | case1 => rfl
  | case2 index q => exact hf q List.mem_cons_self
  | case3 index q r qs ih =>
      rw [atoms, texts_append, texts_cons, hf q List.mem_cons_self, text_hole,
        ih fun p hp => hf p (List.mem_cons_of_mem _ hp), List.append_assoc]

/-- The atoms of literal parts are atoms, and so are the placeholders between them. -/
theorem isAtom_of_mem_atoms (hf : ∀ q ∈ qs, ∀ a ∈ f q.raw, IsAtom a)
    (hi : index + qs.length ≤ indexLimit) : ∀ a ∈ atoms f index qs, IsAtom a := by
  fun_induction joinFrom index qs with
  | case1 => simp [atoms]
  | case2 index q => exact hf q List.mem_cons_self
  | case3 index q r qs ih =>
      simp only [List.length_cons] at hi
      intro a ha
      rw [atoms, List.mem_append, List.mem_cons] at ha
      rcases ha with ha | rfl | ha
      · exact hf q List.mem_cons_self a ha
      · exact .hole index (by omega)
      · exact ih (fun p hp => hf p (List.mem_cons_of_mem _ hp))
          (by simp only [List.length_cons]; omega) a ha

/-- Literal parts without the mark do not make up a placeholder. -/
theorem unmarked_atoms (hf : ∀ q ∈ qs, texts (f q.raw) = q.raw)
    (hmark : ∀ q ∈ qs, ¬ mark <:+: q.raw) : Unmarked (atoms f index qs) := by
  have hpart : ∀ q ∈ qs, Unmarked (f q.raw) := fun q hq =>
    unmarked_of_notMem (by rw [hf q hq]; exact hmark q hq)
  clear hf hmark
  fun_induction joinFrom index qs with
  | case1 => exact unmarked_of_notMem (m := []) (by decide)
  | case2 index q => exact hpart q List.mem_cons_self
  | case3 index q r qs ih =>
      rw [atoms]
      exact (hpart q List.mem_cons_self).append_hole
        (ih fun p hp => hpart p (List.mem_cons_of_mem _ hp))

/-- **The atoms of a template, filled in, are what stands in the source.** -/
theorem expand_atoms {lines : LineMap} {front : Text} {gs pre : List Text}
    (h : Laid lines front qs gs) (hf : ∀ q ∈ qs, texts (f q.raw) = q.raw)
    (hlit : ∀ q ∈ qs, ∀ a ∈ f q.raw, a.isLiteral = true) (hindex : pre.length = index) :
    expand (pre ++ gs) (atoms f index qs) = weave qs gs := by
  fun_induction Laid lines front qs gs generalizing index pre with
  | case1 front q =>
      have hq : texts (f q.raw) = q.raw := hf q List.mem_cons_self
      rw [atoms, expand_of_isLiteral (hlit q List.mem_cons_self), hq]
      simp [weave]
  | case2 front q r qs g gs ih =>
      have hq : texts (f q.raw) = q.raw := hf q List.mem_cons_self
      have hnext : (pre ++ [g]).length = index + 1 := by simp [hindex]
      have hrest := ih h.2.2 (fun p hp => hf p (List.mem_cons_of_mem _ hp))
        (fun p hp => hlit p (List.mem_cons_of_mem _ hp)) hnext
      rw [List.append_assoc, List.singleton_append] at hrest
      have hg : (pre ++ g :: gs)[index]? = some g := by simp [← hindex]
      rw [atoms, expand_append, expand_cons, expand_of_isLiteral (hlit q List.mem_cons_self), hq,
        hrest]
      simp [Piece.resolve, hg, weave]
  | case3 => exact h.elim

/-- What stands between literal parts in the source is the texts of the holes. -/
theorem gaps_of_laid {source front back : Text} {lines : LineMap} {gs : List Text}
    (h : Laid lines front qs gs) (hsource : source = front ++ weave qs gs ++ back) :
    gaps source qs = gs := by
  fun_induction Laid lines front qs gs with
  | case1 => rfl
  | case2 front q r qs g gs ih =>
      obtain ⟨hq, -, hrest⟩ := h
      have hstart : r.span.start = Text.byteSize (front ++ q.raw ++ g) := by rw [hrest.head.span]
      have hstop : q.span.stop = Text.byteSize (front ++ q.raw) := by rw [hq.span]
      have hslice : Text.slice? q.span.stop r.span.start source = some g := by
        have hw : source = front ++ q.raw ++ g ++ (weave (r :: qs) gs ++ back) := by
          rw [hsource]
          simp [weave]
        rw [hstop, hstart, hw]
        exact Text.slice?_append _ _ _
      rw [gaps, hslice, ih hrest (by rw [hsource]; simp [weave])]
      rfl
  | case3 => exact h.elim

end

end Extraction

namespace Placeholder

open Normalized

/-- An indent character begins no escape pair and no placeholder. -/
theorem ne_of_isIndent {c : Char} (h : isIndent c = true) : c ≠ '\\' ∧ c ≠ '/' := by
  constructor <;>
  · rintro rfl
    contradiction

/-- **The atoms of the normalized text**: those of the text without its dropped line and its
indentation. -/
theorem exists_normalized {S : List Piece} (hS : ∀ a ∈ S, IsAtom a) (base : Nat) :
    ∃ d n, S = chars (d ++ (ofText (texts S) base).indentations.front 1) ++
        indent (ofText (texts S) base).indentations.front 1 n ∧
      texts n = (ofText (texts S) base).text ∧
      Text.byteSize d = (ofText (texts S) base).dropped.bytes ∧
      d.breaks = (ofText (texts S) base).dropped.lines ∧ Text.AtLineStart d ∧ n.Sublist S := by
  obtain ⟨d, htext, hsize, hbreaks, hblank, hline⟩ := ofText_spec (texts S) base
  have hd : ∀ c ∈ d, c ≠ '\\' ∧ c ≠ '/' := by
    intro c hc
    rcases hblank c hc with h | rfl | rfl
    · exact ne_of_isIndent h
    · decide
    · decide
  have hfront : ∀ k, ∀ c ∈ (ofText (texts S) base).indentations.front k, c ≠ '\\' ∧ c ≠ '/' :=
    fun k c hc => ne_of_isIndent (isIndent_of_mem_front hc)
  obtain ⟨R, hR, hRtext⟩ := exists_of_append hS hd htext
  have hRatoms : ∀ a ∈ R, IsAtom a := fun a ha => hS a (hR ▸ List.mem_append_right _ ha)
  obtain ⟨M, hM, hMtext⟩ := exists_of_append hRatoms (hfront 1) hRtext
  have hMatoms : ∀ a ∈ M, IsAtom a := fun a ha => hRatoms a (hM ▸ List.mem_append_right _ ha)
  obtain ⟨n, hn, hindent, hsub⟩ := exists_of_indentFrom hfront hMatoms hMtext
  refine ⟨d, n, ?_, hn, hsize, hbreaks, hline, hsub.trans ?_⟩
  · rw [chars_append, hindent, List.append_assoc, ← hM, ← hR]
  · conv => rhs; rw [hR, hM]
    exact (List.sublist_append_right _ _).trans (List.sublist_append_right _ _)

end Placeholder

end StyleBlocks
