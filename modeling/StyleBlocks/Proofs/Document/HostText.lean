import Mathlib.Data.List.Basic
import Mathlib.Data.List.TakeWhile
import StyleBlocks.Document.Printing
import StyleBlocks.Proofs.Block.RawAtoms

/-!
# Atoms in their template

A fragment is made safe for its template by what its text shows: placeholders become holes, and what
would end the template is escaped. Where the text is that of sound atoms there is nothing to escape,
and the placeholders are those among the atoms; so the fragment becomes its atoms with the holes
filled in.

## Main results

* `Placeholder.hostText_texts`: the text of sound atoms, made safe.
* `Placeholder.eq_hole_of_readFragment?`: a fragment that is a placeholder as a whole is one atom.
* `Sheet.Fragment.text_hostSafe`: a fragment, made safe.
-/

namespace StyleBlocks

open Placeholder Template

/-! ### Trimming -/

/-- Digits are not blank. -/
theorem isBlank_of_isDigit {c : Char} (h : c.isDigit = true) : isBlank c = false := by
  simp only [Char.isDigit, Bool.and_eq_true, decide_eq_true_eq, UInt32.le_iff_toNat_le,
    ge_iff_le] at h
  simp only [isBlank, Bool.or_eq_false_iff, Bool.and_eq_false_iff, decide_eq_false_iff_not,
    Char.le_def, UInt32.le_iff_toNat_le, beq_eq_false_iff_ne, ne_eq, Char.ext_iff, UInt32.ext_iff]
  simp at h ⊢
  omega

/-- Trimming takes blanks away at both ends. -/
theorem Text.exists_trim (t : Text) :
    ∃ f b, t = f ++ Text.trim t ++ b ∧ ∀ c ∈ f ++ b, isBlank c = true := by
  refine ⟨t.takeWhile isBlank, ((Text.trimStart t).reverse.takeWhile isBlank).reverse, ?_, ?_⟩
  · have hend : Text.trimEnd (Text.trimStart t) ++
        ((Text.trimStart t).reverse.takeWhile isBlank).reverse =
        Text.trimStart t := by
      rw [Text.trimEnd, ← List.reverse_append, List.takeWhile_append_dropWhile,
        List.reverse_reverse]
    rw [Text.trim, List.append_assoc, hend, Text.trimStart, List.takeWhile_append_dropWhile]
  · intro c hc
    rw [List.mem_append, List.mem_reverse] at hc
    exact hc.elim List.mem_takeWhile_imp List.mem_takeWhile_imp

/-- Text without blanks is not trimmed. -/
theorem Text.trim_eq_self {t : Text} (h : ∀ c ∈ t, isBlank c = false) : Text.trim t = t := by
  obtain ⟨f, b, ht, hblank⟩ := Text.exists_trim t
  have hnil : f ++ b = [] := by
    refine List.eq_nil_iff_forall_not_mem.2 fun c hc => ?_
    have hmem : c ∈ t := by
      rw [ht, List.append_assoc]
      rcases List.mem_append.1 hc with hc | hc <;> simp [hc]
    simpa [h c hmem] using hblank c hc
  obtain ⟨rfl, rfl⟩ := List.append_eq_nil_iff.1 hnil
  simpa using ht.symm

/-! ### Escaping -/

/-- Text without backslashes, backticks and dollar signs is left as it is. -/
theorem Template.RawText.escape_eq_self {t : Text} (h : ∀ c ∈ t, c ≠ '\\' ∧ c ≠ '\x60' ∧ c ≠ '$') :
    escape t = t := by
  induction t with
  | nil => rfl
  | cons c t ih =>
      obtain ⟨hb, hq, hd⟩ := h c List.mem_cons_self
      rw [escape_cons hb hq fun hc => absurd hc hd, ih fun d hd => h d (List.mem_cons_of_mem _ hd)]

namespace Placeholder

/-- Nothing is escaped in a placeholder. -/
theorem escape_create (i : Nat) : RawText.escape (create i) = create i := by
  refine RawText.escape_eq_self fun c hc => ⟨?_, ?_, ?_⟩ <;>
  · rintro rfl
    exact notMem_create rfl (by decide) i hc

section

variable {es : List Text} {m : List Piece} {a : Piece} {t : Text} {ps : List Piece}

/-! ### Escaping -/

/-- Text in front of pieces is left as it is if that holds with any text that may follow it. -/
theorem flatMap_resolve_escape_consLiteral (ht : RawText.escape t = t)
    (h : ∀ u, ps.head? = some (.literal u) → RawText.escape (t ++ u) = t ++ RawText.escape u) :
    (consLiteral t ps).flatMap (Piece.resolve RawText.escape es) =
      t ++ ps.flatMap (Piece.resolve RawText.escape es) := by
  match ps with
  | [] => simp [consLiteral, Piece.resolve, ht]
  | .hole i u :: ps => simp [consLiteral, Piece.resolve, ht]
  | .literal u :: ps => simp [consLiteral, Piece.resolve, h u rfl]

/-- Text at the start of pieces that have grown together starts with the first of them. -/
theorem exists_of_head?_glue {u : Text} (h : (glue m).head? = some (.literal u)) :
    ∃ w v, m.head? = some (.literal w) ∧ u = w ++ v := by
  match m with
  | [] => simp [glue] at h
  | .hole i w :: m => simp [glue] at h
  | .literal w :: m =>
      rw [glue] at h
      unfold consLiteral at h
      split at h
      · next v _ _ => exact ⟨w, v, rfl, by simpa [eq_comm] using h⟩
      · exact ⟨w, [], rfl, by simpa [eq_comm] using h⟩

/-- Only one atom starts with a brace. -/
theorem IsAtom.eq_brace {w : Text} (h : IsAtom (.literal w)) (hw : w.head? = some '{') :
    w = ['{'] := by
  cases h with
  | char c => simpa using hw
  | pair c hc => simp at hw

/-- **Nothing is escaped in sound atoms.** -/
theorem flatMap_resolve_escape_glue (h : Sound m) :
    (glue m).flatMap (Piece.resolve RawText.escape es) = expand es m := by
  induction m with
  | nil => rfl
  | cons a m ih =>
      have ih := ih h.tail
      have hm := h.tail.isAtom
      cases h.isAtom a List.mem_cons_self with
      | hole i hi => simp [glue, Piece.resolve, escape_create, ih]
      | pair c hc =>
          rw [glue, flatMap_resolve_escape_consLiteral rfl fun u _ => rfl, ih, expand_cons,
            resolve_literal]
      | char c =>
          have hb : c ≠ '\\' := fun hc => h.backslash (by simp [hc])
          have hq : c ≠ '\x60' := fun hc => h.backtick (by simp [hc])
          have hself : RawText.escape [c] = [c] := RawText.escape_cons hb hq (by simp)
          refine (flatMap_resolve_escape_consLiteral hself fun u hu => ?_).trans (by rw [ih]; rfl)
          refine RawText.escape_cons hb hq fun hc hbrace => ?_
          obtain ⟨w, v, hw, rfl⟩ := exists_of_head?_glue hu
          have hatom := hm _ (List.mem_of_mem_head? hw)
          have hhead : w.head? = some '{' := by
            cases hatom with
            | char d => simpa using hbrace
            | pair d hd => simp at hbrace
          rw [hatom.eq_brace hhead] at hw
          exact ((List.isChain_cons.1 h.chain).1 _ hw).brace rfl (by rw [hc])

/-- **The text of sound atoms, made safe**, is the atoms with the holes filled in. -/
theorem hostText_texts (h : Sound m) (hu : Unmarked m) : hostText es (texts m) = expand es m := by
  rw [hostText, resolve, pieces_texts h.isAtom hu, flatMap_resolve_escape_glue h]

/-! ### Whole comments -/

/-- What is between the marks of a comment that is a placeholder: blanks, the word, and a numeral.
-/
theorem trim_of_readComment? {inner : Text} {i : Nat} (h : readComment? inner = some i) :
    ∃ digits, Text.trim inner = mark ++ ':' :: digits ∧ (∀ c ∈ digits, c.isDigit = true) ∧
      i = Text.digitsValue digits := by
  simp only [readComment?, Option.bind_eq_bind, Option.bind_eq_some_iff] at h
  obtain ⟨digits, hdigits, h⟩ := h
  rw [Text.dropStart?_eq_some_iff] at hdigits
  refine ⟨digits, by simpa using hdigits, ?_⟩
  split at h
  · contradiction
  · next hall =>
      simp only [Bool.or_eq_true, not_or, Bool.not_eq_true', Bool.not_eq_false,
        List.all_eq_true] at hall
      refine ⟨hall.2, ?_⟩
      split at h
      · contradiction
      · split at h
        · exact (Option.some.inj h).symm
        · contradiction

/-- What a fragment that is a placeholder as a whole looks like. -/
theorem exists_of_readFragment? {f : Text} {i : Nat} (h : readFragment? f = some i) :
    ∃ inner digits, f = '/' :: '*' :: (inner ++ ['*', '/']) ∧ '/' ∉ inner ∧
      Text.trim inner = mark ++ ':' :: digits ∧ i = Text.digitsValue digits := by
  simp only [readFragment?, Option.bind_eq_bind, Option.bind_eq_some_iff] at h
  obtain ⟨rest, hrest, inner, hinner, h⟩ := h
  rw [Text.dropStart?_eq_some_iff] at hrest
  rw [Text.dropEnd?_eq_some_iff] at hinner
  obtain ⟨digits, htrim, hdigits, hi⟩ := trim_of_readComment? h
  refine ⟨inner, digits, by rw [hrest, hinner]; rfl, ?_, htrim, hi⟩
  -- a slash is neither blank nor part of the word or the numeral
  obtain ⟨f, b, hfb, hblank⟩ := Text.exists_trim inner
  rw [htrim] at hfb
  have hf : '/' ∉ f ++ b := fun hs => absurd (hblank _ hs) (by decide)
  have hd : '/' ∉ digits := fun hs => absurd (hdigits _ hs) (by decide)
  have hmark : '/' ∉ mark := by decide
  rw [List.mem_append, not_or] at hf
  simp [hfb, hf, hd, hmark]

/-- The placeholder of an index is read as that index. -/
theorem eq_of_readFragment?_create {i j : Nat} (h : readFragment? (create j) = some i) : i = j := by
  obtain ⟨inner, digits, hcreate, -, htrim, rfl⟩ := exists_of_readFragment? h
  obtain rfl : mark ++ ':' :: Text.ofNat j = inner := by
    have hcut : mark ++ ':' :: Text.ofNat j ++ ['*', '/'] = inner ++ ['*', '/'] := by
      simpa [create] using hcreate
    exact List.append_cancel_right hcut
  have hself : Text.trim (mark ++ ':' :: Text.ofNat j) = mark ++ ':' :: Text.ofNat j := by
    refine Text.trim_eq_self fun c hc => ?_
    rcases List.mem_append.1 hc with hc | hc
    · have hmark : mark.all (fun c => !isBlank c) = true := by decide
      simpa using List.all_eq_true.1 hmark c hc
    · rcases List.mem_cons.1 hc with rfl | hc
      · rfl
      · exact isBlank_of_isDigit (isDigit_of_mem_ofNat hc)
  rw [hself] at htrim
  obtain rfl : Text.ofNat j = digits := by simpa using htrim
  exact digitsValue_ofNat j

/-- What is between the marks of a placeholder does not stand in front of atoms. -/
theorem not_prefix_of_trim {inner digits : Text} (hm : ∀ a ∈ m, IsAtom a) (hu : Unmarked m)
    (htrim : Text.trim inner = mark ++ ':' :: digits) (hslash : '/' ∉ inner) :
    ¬ '*' :: inner <+: texts m := by
  intro hleads
  obtain ⟨lits, hlits, hall, hpre⟩ := exists_literals_of_prefix hm (by simpa using hslash) hleads
  obtain ⟨f, b, hfb, -⟩ := Text.exists_trim inner
  rw [htrim] at hfb
  refine hu lits hlits.isInfix hall (List.IsInfix.trans ?_ hpre.isInfix)
  exact ⟨'*' :: f, ':' :: digits ++ b, by simp [hfb]⟩

/-- Only a placeholder has a slash that is not its last character, and it is the first one. -/
theorem IsAtom.eq_hole_of_slash {front w : Text} (ha : IsAtom a) (h : a.text = front ++ '/' :: w)
    (hw : w ≠ []) : front = [] ∧ ∃ j, a = .hole j (create j) := by
  cases ha with
  | char c => simp_all [List.singleton_eq_append_iff]
  | pair c hc =>
      match front with
      | [] => simp at h
      | [e] => simp_all
      | e :: g :: front => simp at h
  | hole j hj =>
      obtain ⟨body, hbody, hfree⟩ := exists_create_eq j
      refine ⟨?_, j, rfl⟩
      match front with
      | [] => rfl
      | e :: front =>
          have hcut : body ++ '/' :: [] = front ++ '/' :: w := by
            rw [text_hole, hbody] at h
            simpa using (List.cons.inj h).2
          exact absurd ((List.append_cons_inj_of_notMem hfree List.not_mem_nil).1 hcut).2.2.symm hw

/-- Texts without a slash are equal if one slash ends both. -/
theorem eq_of_append_slash {t u v w : Text} (ht : '/' ∉ t) (hu : '/' ∉ u)
    (h : t ++ '/' :: v = u ++ '/' :: w) : t = u := by
  have hcut : ∀ {t v : Text}, '/' ∉ t → (t ++ '/' :: v).takeWhile (· != '/') = t := by
    intro t v ht
    rw [List.takeWhile_append_of_pos fun c hc => by simpa using ne_of_mem_of_not_mem hc ht]
    simp
  rw [← hcut (v := v) ht, h, hcut hu]

/-- **A placeholder as a whole in the text of atoms is one of them**, wherever it stands. -/
theorem exists_hole_of_readFragment? {front f back : Text} {i : Nat} (hm : ∀ a ∈ m, IsAtom a)
    (hu : Unmarked m) (h : readFragment? f = some i) (hcut : texts m = front ++ (f ++ back)) :
    ∃ u v, m = u ++ .hole i (create i) :: v ∧ texts u = front ∧ f = create i := by
  obtain ⟨inner, digits, hf, hslash, htrim, -⟩ := exists_of_readFragment? h
  induction m generalizing front with
  | nil => simp [hf] at hcut
  | cons a m ih =>
      have hm' : ∀ b ∈ m, IsAtom b := fun b hb => hm b (List.mem_cons_of_mem _ hb)
      have hu' : Unmarked m := hu.of_infix (List.suffix_cons a m).isInfix
      have hnot := not_prefix_of_trim hm' hu' htrim hslash
      rw [texts_cons] at hcut
      rcases List.append_eq_append_iff.1 hcut with ⟨w, hw, hrest⟩ | ⟨w, hw, hrest⟩
      · obtain ⟨u, v, rfl, rfl, hcreate⟩ := ih hm' hu' hrest
        exact ⟨a :: u, v, rfl, hw.symm, hcreate⟩
      match w with
      | [] =>
          have hrest : texts m = [] ++ (f ++ back) := hrest.symm
          obtain ⟨u, v, rfl, hnil, hcreate⟩ := ih hm' hu' hrest
          exact ⟨a :: u, v, rfl, by simp [hw, hnil], hcreate⟩
      | d :: w =>
          rw [hf, List.cons_append, List.cons_append, List.cons_append, List.cons.injEq] at hrest
          obtain ⟨rfl, hrest⟩ := hrest
          -- Behind the last slash of an atom, the rest of the fragment would stand in front of atoms.
          have hlast : w ≠ [] := by
            rintro rfl
            refine hnot ⟨['*', '/'] ++ back, ?_⟩
            rw [List.nil_append] at hrest
            simp [← hrest]
          obtain ⟨rfl, j, rfl⟩ := (hm a List.mem_cons_self).eq_hole_of_slash hw hlast
          obtain ⟨body, hbody, hfree⟩ := exists_create_eq j
          rw [text_hole, hbody, List.nil_append, List.cons.injEq] at hw
          have hstar : '/' ∉ '*' :: inner ++ ['*'] := by simpa using hslash
          have hbodies : '*' :: inner ++ ['*'] ++ '/' :: back = body ++ '/' :: texts m := by
            rw [← hw.2] at hrest
            simpa using hrest
          have hinner := eq_of_append_slash hstar hfree hbodies
          have hcreate : f = create j := by
            rw [hf, hbody, ← hinner]
            simp
          obtain rfl := eq_of_readFragment?_create (hcreate ▸ h)
          exact ⟨[], m, rfl, rfl, hcreate⟩

/-- **A fragment that is a placeholder as a whole is one atom.** -/
theorem eq_hole_of_readFragment? {i : Nat} (hm : ∀ a ∈ m, IsAtom a) (hu : Unmarked m)
    (h : readFragment? (texts m) = some i) : m = [.hole i (create i)] := by
  have hcut : texts m = [] ++ (texts m ++ []) := by simp
  obtain ⟨u, v, rfl, hfront, hcreate⟩ := exists_hole_of_readFragment? hm hu h hcut
  have hnil : ∀ {w : List Piece}, (∀ a ∈ w, IsAtom a) → texts w = [] → w = [] := by
    intro w hw htexts
    match w with
    | [] => rfl
    | a :: w => simp [(hw a List.mem_cons_self).text_ne_nil] at htexts
  obtain rfl := hnil (fun a ha => hm a (by simp [ha])) hfront
  obtain rfl := hnil (fun a ha => hm a (by simp [ha])) (w := v) (by simpa using hcreate)
  rfl

end

end Placeholder

/-! ### Fragments -/

namespace Sheet.Fragment

/-- **A fragment, made safe**, is its atoms with the holes filled in; one that belongs to no node
has no holes. -/
theorem text_hostSafe (es : List Text) {m : List Piece} {f : Fragment} (h : Sound m)
    (hu : Unmarked m)
    (hf : f.text = Placeholder.texts m)
    (hroot : f.owner = none ∨ f.owner = some .root → ∀ a ∈ m, a.isLiteral = true) :
    (f.hostSafe es).text = expand es m := by
  have hhost : hostText es f.text = expand es m := by rw [hf, hostText_texts h hu]
  rw [hostSafe]
  split
  · next hnone => rw [hf, expand_of_isLiteral (hroot (Or.inl hnone))]
  · next hsome => rw [hf, expand_of_isLiteral (hroot (Or.inr hsome))]
  · split
    · next e he =>
        obtain ⟨i, hi, he⟩ := Option.bind_eq_some_iff.1 he
        obtain rfl := eq_hole_of_readFragment? h.isAtom hu (hf ▸ hi)
        simp [Piece.resolve, he]
    · exact hhost
  · exact hhost

end Sheet.Fragment

end StyleBlocks
