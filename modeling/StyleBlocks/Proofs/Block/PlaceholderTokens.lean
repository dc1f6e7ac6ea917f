import Mathlib.Data.List.Basic
import Mathlib.Data.List.TakeWhile
import StyleBlocks.Proofs.Block.Extracted

/-!
# Placeholders among literal parts

A template is extracted by putting a placeholder between every two of its literal parts. Placeholders
are looked for from left to right, in the literal parts too, so one that a literal part spells is found
as well, and a literal part that spells one up to its last slash takes the slash of the placeholder
behind it and hides that. What a literal part does depends on nothing but the part itself: in front of
any placeholder it does what it does in front of the first one.

## Main results

* `readToken?_append_slash`: text in front of a placeholder reads the slash of it at most.
* `Clear.foundFrom_eq`, `clear_of_foundFrom`: a text lets the placeholder behind it be found first just
  if it is clear.
* `Extraction.foundFrom_joinFrom_iff`: what is found in an extracted text is what was put in just if no
  literal part stands in the way.
-/

namespace StyleBlocks

open Template

namespace Placeholder

section

variable {t u v digits : Text} {k : Token} {o i : Nat} {ps : List Piece}

/-- A placeholder that is read is spelled with digits. -/
theorem exists_spelled_of_readToken? (h : readToken? t = some k) :
    ∃ digits, digits ≠ [] ∧ (∀ c ∈ digits, c.isDigit = true) ∧
      k = ⟨spelled digits, Text.digitsValue digits, k.rest⟩ ∧ t = spelled digits ++ k.rest := by
  have ht := text_append_rest_of_readToken? h
  simp only [readToken?, Option.bind_eq_bind, Option.bind_eq_some_iff] at h
  obtain ⟨u, -, rest, -, h⟩ := h
  split at h
  · contradiction
  · next hne =>
      cases h
      refine ⟨u.takeWhile Char.isDigit, by simpa using hne, fun c hc => List.mem_takeWhile_imp hc, ?_,
        by simpa [spelled] using ht.symm⟩
      simp [spelled]

/-- **Text in front of a slash** reads the same placeholder whatever is behind the slash. -/
theorem readToken?_append_slash (ht : t ≠ []) (v : Text) :
    readToken? (t ++ '/' :: v) =
      (readToken? (t ++ ['/'])).map fun k => { k with rest := k.rest ++ v } := by
  cases hk : readToken? (t ++ ['/']) with
  | some k =>
      obtain ⟨digits, hne, hdigits, hk, heq⟩ := exists_spelled_of_readToken? hk
      have hlonger : t ++ '/' :: v = spelled digits ++ (k.rest ++ v) := by
        rw [← List.append_assoc, ← heq]
        simp
      rw [hlonger, readToken?_spelled hne hdigits, Option.map_some, hk]
  | none =>
      rw [Option.map_none]
      by_contra hsome
      obtain ⟨k, hk'⟩ := Option.ne_none_iff_exists'.1 hsome
      obtain ⟨digits, hne, hdigits, -, heq⟩ := exists_spelled_of_readToken? hk'
      have hcut : (t ++ ['/']) ++ v = spelled digits ++ k.rest := by simpa using heq
      have hleads : ∃ w, t ++ ['/'] = spelled digits ++ w := by
        rcases List.append_eq_append_iff.1 hcut with ⟨w, hw, -⟩ | ⟨w, hw, -⟩
        · -- The slash stands in the placeholder, so it is the last character of it.
          obtain ⟨inner, hinner, hslash⟩ := exists_spelled_eq hdigits
          obtain ⟨c, s, rfl⟩ := List.exists_cons_of_ne_nil ht
          have hrest : inner ++ '/' :: [] = s ++ '/' :: w := by
            rw [hinner] at hw
            simpa using (List.cons.inj hw).2
          obtain ⟨-, -, rfl⟩ := (List.append_cons_inj_of_notMem hslash List.not_mem_nil).1 hrest
          exact ⟨[], by rw [hw, List.append_nil, List.append_nil]⟩
        · exact ⟨w, hw⟩
      obtain ⟨w, hw⟩ := hleads
      rw [hw, readToken?_spelled hne hdigits] at hk
      contradiction

/-! ### Texts in front of a placeholder -/

/-- A text is **clear** if it lets a placeholder behind it be the first one that is found: it makes up
none by itself, except for one with an index beyond the limit, and none together with a slash. -/
inductive Clear : Text → Prop
  | nil : Clear []
  | char {c : Char} {t : Text} (read : readToken? (c :: t ++ ['/']) = none) (rest : Clear t) :
      Clear (c :: t)
  | token {t : Text} {k : Token} (read : readToken? t = some k) (index : indexLimit ≤ k.index)
      (rest : Clear k.rest) : Clear t

/-- No placeholder is found at a character that begins none. -/
theorem foundFrom_pieces_cons {c : Char} (h : readToken? (c :: t) = none) :
    foundFrom o (pieces (c :: t)) = foundFrom (o + Text.byteSize [c]) (pieces t) := by
  rw [pieces]
  split
  · next k hk => simp [hk] at h
  · rw [foundFrom_consLiteral]

/-- A placeholder in front of a text is found at its start if its index is within the limit. -/
theorem foundFrom_pieces_token (h : readToken? t = some k) :
    foundFrom o (pieces t) =
      (if k.index < indexLimit then [⟨k.index, ⟨o, o + Text.byteSize k.text⟩⟩] else []) ++
        foundFrom (o + Text.byteSize k.text) (pieces k.rest) := by
  match t with
  | [] => contradiction
  | c :: t =>
      rw [pieces]
      split
      · next l hl =>
          obtain rfl : k = l := Option.some.inj (h.symm.trans hl)
          split
          · rfl
          · rw [foundFrom_consLiteral]
            rfl
      · next hl => simp [hl] at h

/-- **A clear text** has no placeholders, and hides none behind it. -/
theorem Clear.foundFrom_eq (h : Clear t) (o : Nat) (v : Text) :
    foundFrom o (pieces (t ++ '/' :: v)) = foundFrom (o + Text.byteSize t) (pieces ('/' :: v)) := by
  induction h generalizing o with
  | nil => rfl
  | @char c t hread _ ih =>
      have hnone : readToken? (c :: (t ++ '/' :: v)) = none := by
        have hslash := readToken?_append_slash (List.cons_ne_nil c t) v
        rw [hread] at hslash
        exact hslash
      rw [List.cons_append, foundFrom_pieces_cons hnone, ih, Nat.add_assoc, ← Text.byteSize_append]
      rfl
  | @token t k hread hindex _ ih =>
      obtain ⟨digits, hne, hdigits, hk, ht⟩ := exists_spelled_of_readToken? hread
      have hread' := readToken?_spelled hne hdigits (k.rest ++ '/' :: v)
      rw [← List.append_assoc, ← ht] at hread'
      have hlimit : ¬ Text.digitsValue digits < indexLimit := by
        rw [hk] at hindex
        exact Nat.not_lt.2 hindex
      have hsize : Text.byteSize t = Text.byteSize (spelled digits) + Text.byteSize k.rest := by
        rw [← Text.byteSize_append, ← ht]
      rw [foundFrom_pieces_token hread', if_neg hlimit, List.nil_append, ih, hsize, Nat.add_assoc]

/-- No placeholder is found in front of where the search starts. -/
theorem le_of_mem_foundFrom {f : Found} (h : f ∈ foundFrom o ps) : o ≤ f.span.start := by
  fun_induction foundFrom o ps with
  | case1 => contradiction
  | case2 o t ps ih => exact Nat.le_trans (Nat.le_add_right _ _) (ih h)
  | case3 o i t ps ih =>
      rcases List.mem_cons.1 h with rfl | h
      · exact Nat.le_refl _
      · exact Nat.le_trans (Nat.le_add_right _ _) (ih h)

/-- A text is clear if the first placeholder that is found is behind it. -/
theorem clear_of_foundFrom {t v : Text} {o : Nat} {f : Found}
    (hf : f ∈ (foundFrom o (pieces (t ++ '/' :: v))).head?)
    (hstart : f.span.start = o + Text.byteSize t) : Clear t := by
  match t with
  | [] => exact .nil
  | c :: t =>
      have hpos : 0 < Text.byteSize (c :: t) := Text.byteSize_pos (List.cons_ne_nil _ _)
      have hslash := readToken?_append_slash (List.cons_ne_nil c t) v
      cases hk : readToken? (c :: t ++ ['/']) with
      | none =>
          rw [hk, Option.map_none, List.cons_append] at hslash
          rw [List.cons_append, foundFrom_pieces_cons hslash] at hf
          refine .char hk (clear_of_foundFrom hf ?_)
          rw [hstart, Nat.add_assoc, ← Text.byteSize_append]
          rfl
      | some k =>
          obtain ⟨digits, hne, hdigits, hk', ht⟩ := exists_spelled_of_readToken? hk
          rw [hk, Option.map_some] at hslash
          rw [foundFrom_pieces_token hslash] at hf
          -- A placeholder within the limit would be found where the text starts.
          have hlimit : ¬ k.index < indexLimit := by
            intro hlt
            rw [if_pos hlt, List.singleton_append, List.head?_cons, Option.mem_some_iff] at hf
            rw [← hf] at hstart
            simp only at hstart
            omega
          rw [if_neg hlimit, List.nil_append, hk'] at hf
          have hindex : indexLimit ≤ Text.digitsValue digits := by
            rw [hk'] at hlimit
            exact Nat.le_of_not_lt hlimit
          rcases List.eq_nil_or_concat' k.rest with hnil | ⟨r, d, hrest⟩
          · -- The slash belongs to this placeholder, so nothing is found where the text ends.
            have hsize := congrArg Text.byteSize ht
            have hle := le_of_mem_foundFrom (List.mem_of_mem_head? hf)
            have hone : Text.byteSize ['/'] = 1 := rfl
            rw [hnil, List.append_nil, Text.byteSize_append, hone] at hsize
            simp only at hle
            omega
          · rw [hrest, ← List.append_assoc] at ht
            obtain ⟨hcut, hd⟩ := List.append_inj' ht rfl
            obtain rfl : '/' = d := by simpa using hd
            have hread := readToken?_spelled hne hdigits r
            have hsize := congrArg Text.byteSize hcut
            rw [Text.byteSize_append] at hsize
            simp only [hrest, List.append_assoc, List.singleton_append] at hf
            have hlt : r.length < (c :: t).length := by
              rw [hcut, spelled]
              simp only [List.length_append, List.length_cons]
              omega
            rw [hcut]
            refine .token hread hindex (clear_of_foundFrom hf ?_)
            rw [hstart, hsize, Nat.add_assoc]
termination_by t.length
decreasing_by
  · exact Nat.lt_succ_self _
  · exact hlt

/-- A text is **told apart** from a placeholder behind it if that is the one placeholder in both. -/
def IsToldApart (t : Text) : Prop :=
  findAll (t ++ create 0) = [⟨0, ⟨Text.byteSize t, Text.byteSize t + Text.byteSize (create 0)⟩⟩]

instance (t : Text) : Decidable (IsToldApart t) :=
  inferInstanceAs (Decidable (_ = _))

/-- A placeholder that has been created is found at its start, with its index. -/
theorem foundFrom_pieces_create (hi : i < indexLimit) (o : Nat) (v : Text) :
    foundFrom o (pieces (create i ++ v)) = ⟨i, ⟨o, o + Text.byteSize (create i)⟩⟩ ::
      foundFrom (o + Text.byteSize (create i)) (pieces v) := by
  rw [pieces_create hi, foundFrom]

/-- In front of a placeholder, a clear text is what is not searched. -/
theorem Clear.foundFrom_create (h : Clear t) (hi : i < indexLimit) (o : Nat) (v : Text) :
    foundFrom o (pieces (t ++ (create i ++ v))) =
      ⟨i, ⟨o + Text.byteSize t, o + Text.byteSize t + Text.byteSize (create i)⟩⟩ ::
        foundFrom (o + Text.byteSize t + Text.byteSize (create i)) (pieces v) := by
  have hcreate := foundFrom_pieces_create hi (o + Text.byteSize t) v
  rw [← hcreate]
  exact h.foundFrom_eq o _

/-- **A text is clear just if it is told apart from the first placeholder**, so what it does is the same
in front of any other one. -/
theorem isToldApart_iff_clear : IsToldApart t ↔ Clear t := by
  constructor
  · intro h
    refine clear_of_foundFrom (o := 0) (v := (create 0).tail)
      (f := ⟨0, ⟨Text.byteSize t, Text.byteSize t + Text.byteSize (create 0)⟩⟩) ?_
      (Nat.zero_add _).symm
    have hfound : findAll (t ++ '/' :: (create 0).tail) = _ := h
    rw [findAll] at hfound
    rw [hfound]
    rfl
  · intro h
    have hfound := h.foundFrom_create (i := 0) (by decide) 0 []
    rw [List.append_nil, Nat.zero_add, pieces] at hfound
    exact hfound

/-- A comment is told apart, and so is a placeholder beyond the limit; one within the limit is not,
whole or up to its slash. -/
example :
    IsToldApart "/*a*/".toList ∧ IsToldApart "/*STYLE_EXPR:18446744073709551616*/".toList ∧
      ¬ IsToldApart "/*STYLE_EXPR:01*/".toList ∧ ¬ IsToldApart "/*STYLE_EXPR:1*".toList := by
  decide +kernel

/-- Where a text starts makes no difference to whether it has placeholders. -/
theorem foundFrom_eq_nil_iff {ps : List Piece} :
    foundFrom o ps = [] ↔ ∀ p ∈ ps, p.isLiteral = true := by
  fun_induction foundFrom o ps with
  | case1 => simp
  | case2 o t ps ih => simp [ih, Piece.isLiteral]
  | case3 o i t ps ih => simp [Piece.isLiteral]

end

end Placeholder

namespace Extraction

open Placeholder

/-- The placeholders that are put between literal parts, the first of which starts at an offset. -/
def inserted (offset index : Nat) : List Quasi → List Found
  | [] | [_] => []
  | q :: r :: qs =>
    let start := offset + Text.byteSize q.raw
    let stop := start + Text.byteSize (create index)
    ⟨index, ⟨start, stop⟩⟩ :: inserted stop (index + 1) (r :: qs)

/-- The placeholders among the atoms of literal parts are those that are put between them. -/
theorem foundFrom_atoms (offset index : Nat) (qs : List Quasi) :
    foundFrom offset (atoms chars index qs) = inserted offset index qs := by
  have hchars : ∀ (o : Nat) (t : Text) (m : List Piece),
      foundFrom o (chars t ++ m) = foundFrom (o + Text.byteSize t) m := by
    intro o t m
    induction t generalizing o with
    | nil => rfl
    | cons c t ih => rw [chars_cons, List.cons_append, foundFrom, ih, Nat.add_assoc]; rfl
  fun_induction inserted offset index qs with
  | case1 => rfl
  | case2 offset index q => rw [atoms, ← List.append_nil (chars q.raw), hchars, foundFrom]
  | case3 offset index q r qs start stop ih => rw [atoms, hchars, foundFrom, ih]

/-- **What is found in an extracted text is what was put in** just if every literal part with a
placeholder behind it is told apart from a placeholder, and the last one has none. -/
theorem foundFrom_joinFrom_iff {offset index : Nat} {qs : List Quasi}
    (hlimit : index + qs.length ≤ indexLimit) :
    foundFrom offset (pieces (joinFrom index qs)) = inserted offset index qs ↔
      (∀ q ∈ qs.dropLast, IsToldApart q.raw) ∧ ∀ q ∈ qs.getLast?, findAll q.raw = [] := by
  fun_induction inserted offset index qs with
  | case1 => simp [joinFrom, pieces, foundFrom]
  | case2 offset index q => simp [joinFrom, findAll, foundFrom_eq_nil_iff]
  | case3 offset index q r qs start stop ih =>
      simp only [List.length_cons] at hlimit ih
      rw [joinFrom, List.append_assoc, List.dropLast_cons_cons, List.getLast?_cons_cons,
        List.forall_mem_cons, and_assoc, isToldApart_iff_clear, ← ih (by omega)]
      constructor
      · intro h
        have hcut : q.raw ++ '/' :: ((create index).tail ++ joinFrom (index + 1) (r :: qs)) =
            q.raw ++ (create index ++ joinFrom (index + 1) (r :: qs)) := rfl
        have hclear : Clear q.raw := clear_of_foundFrom (f := ⟨index, ⟨start, stop⟩⟩) (o := offset)
          (by rw [hcut, h]; rfl) rfl
        rw [hclear.foundFrom_create (by omega), List.cons.injEq] at h
        exact ⟨hclear, h.2⟩
      · rintro ⟨hclear, hrest⟩
        rw [hclear.foundFrom_create (by omega), ← hrest]

end Extraction

end StyleBlocks
