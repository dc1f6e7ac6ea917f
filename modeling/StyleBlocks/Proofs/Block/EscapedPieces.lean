import StyleBlocks.Block.Extraction
import StyleBlocks.Proofs.Block.Atom
import StyleBlocks.Proofs.Template.EscapePairs

/-!
# Escape pairs and placeholders

Placeholders are found in style text by its characters, and cut it in pieces. No cut is within an
escape pair if no pair takes the slash that a placeholder begins with. The text of a template is like
that: a placeholder stands behind a whole literal part.

## Main results

* `dangles_of_cut`: no cut between pieces is within an escape pair.
* `Extraction.sheltered_joinFrom`: the text of a template is sheltered.
* `Sheltered.escape_of_mem_escaped`: what escaping makes of the pieces that are escaped.
-/

namespace StyleBlocks

open Placeholder Template RawText

namespace Placeholder

/-- Escape pairs **spare placeholders** in a text if none of them takes the slash of one. -/
def PairsSpare : Text → Prop
  | '\\' :: c :: t => ¬ '/' :: '*' :: mark <+: c :: t ∧ PairsSpare t
  | _ :: t => PairsSpare t
  | [] => True

/-- A text is **sheltered** if it is raw text, and its escape pairs spare placeholders. -/
structure Sheltered (t : Text) : Prop where
  isRaw : IsRaw t
  spare : PairsSpare t

section

variable {c : Char} {s t z : Text} {u v ps : List Piece} {p : Piece}

/-- A character that begins no escape pair takes nothing from a placeholder. -/
theorem pairsSpare_cons (hc : c ≠ '\\') : PairsSpare (c :: t) ↔ PairsSpare t := by
  rw [PairsSpare]
  exact fun _ _ h _ => hc h

/-- Behind whole pairs, placeholders are spared as if nothing were in front. -/
theorem PairsSpare.of_append (h : PairsSpare (s ++ t)) (hs : dangles s = false) :
    PairsSpare t := by
  fun_induction dangles s with
  | case1 => exact h
  | case2 => contradiction
  | case3 c s ih => exact ih h.2 hs
  | case4 c s hend hpair ih => exact ih ((pairsSpare_cons (ne_backslash hend hpair)).1 h) hs

/-- What stands behind whole pairs, or behind half a pair of which a line feed is the other half, is
sheltered. -/
theorem Sheltered.of_append (h : Sheltered (s ++ t))
    (hs : dangles s = true → t.head? = some '\n') : Sheltered t := by
  cases hd : dangles s with
  | false => exact ⟨(h.isRaw.of_append hd).2, h.spare.of_append hd⟩
  | true =>
      obtain ⟨t, rfl⟩ := List.head?_eq_some_iff.1 (hs hd)
      obtain ⟨s, rfl, hpairs⟩ := exists_of_dangles hd
      obtain ⟨hraw, hspare⟩ := h
      rw [List.append_assoc] at hraw hspare
      have hpair := hspare.of_append hpairs
      rw [List.singleton_append, PairsSpare] at hpair
      have hrest : IsRaw t := isRaw_pair.1 (hraw.of_append hpairs).2
      exact ⟨(isRaw_cons_iff (by decide)).2 ⟨by decide, by simp, hrest⟩,
        (pairsSpare_cons (by decide)).2 hpair.2⟩

/-! ### Pieces -/

/-- A placeholder begins with its mark. -/
theorem prefix_of_readToken? {k : Token} (h : readToken? t = some k) : '/' :: '*' :: mark <+: t := by
  simp only [readToken?, Option.bind_eq_bind, Option.bind_eq_some_iff] at h
  obtain ⟨r, hr, -⟩ := h
  rw [Text.dropStart?_eq_some_iff] at hr
  exact ⟨':' :: r, by simp [hr]⟩

/-- A placeholder has no backslashes. -/
theorem notMem_of_readToken? {k : Token} (h : readToken? t = some k) : '\\' ∉ k.text := by
  simp only [readToken?, Option.bind_eq_bind, Option.bind_eq_some_iff] at h
  obtain ⟨r, -, rest, -, h⟩ := h
  split at h
  · contradiction
  · cases h
    have hmark : '\\' ∉ mark := by decide
    have hdigits : '\\' ∉ r.takeWhile Char.isDigit := fun hm =>
      absurd (List.all_eq_true.1 (List.all_takeWhile (l := r)) '\\' hm) (by decide)
    simp [hmark, hdigits]

/-- A character that begins no placeholder is read by itself. -/
theorem pieces_cons_of_none (h : readToken? (c :: t) = none) :
    pieces (c :: t) = consLiteral [c] (pieces t) := by
  rw [pieces]
  split
  · next k hk => simp [h] at hk
  · rfl

/-- A text that starts with a placeholder. -/
theorem pieces_of_readToken? {k : Token} (h : readToken? t = some k) :
    pieces t = .hole k.index k.text :: pieces k.rest ∨
      pieces t = consLiteral k.text (pieces k.rest) := by
  cases t with
  | nil => simp [readToken?, Text.dropStart?] at h
  | cons c t =>
      rw [pieces]
      split
      · next l hl =>
          obtain rfl : k = l := Option.some.inj (h.symm.trans hl)
          split
          · exact Or.inl rfl
          · exact Or.inr rfl
      · next hnone => simp [h] at hnone

/-- A cut of pieces that text has been put in front of. -/
theorem exists_of_consLiteral_eq_append (h : consLiteral s ps = u ++ v) (hu : u ≠ []) :
    ∃ w, ps = w ++ v ∧ texts u = s ++ texts w := by
  obtain ⟨p, u, rfl⟩ := List.exists_cons_of_ne_nil hu
  unfold consLiteral at h
  split at h
  · next q ps =>
      obtain ⟨rfl, rfl⟩ := List.cons.inj h
      exact ⟨.literal q :: u, rfl, by simp⟩
  · obtain ⟨rfl, rfl⟩ := List.cons.inj h
    exact ⟨u, rfl, rfl⟩

/-- **No cut between pieces is within an escape pair** if these spare placeholders, also those that
go on behind the text. -/
theorem dangles_of_cut {t : Text} {u : List Piece} (h : PairsSpare (t ++ z))
    (hcut : pieces t = u ++ v) (hv : v ≠ []) : dangles (texts u) = false := by
  rcases eq_or_ne u [] with rfl | hu
  · rfl
  -- the pieces of `r` behind a text `s` without half a pair
  have hstep : ∀ {s r : Text} {ps : List Piece}, r.length < t.length → dangles s = false →
      t = s ++ r → pieces r = ps ++ v → dangles (s ++ texts ps) = false := by
    intro s r ps hlt hs ht hr
    rw [ht, List.append_assoc] at h
    rw [dangles_append hs]
    exact dangles_of_cut (h.of_append hs) hr hv
  cases t with
  | nil =>
      rw [pieces, eq_comm, List.append_eq_nil_iff] at hcut
      exact absurd hcut.1 hu
  | cons c t =>
      cases hread : readToken? (c :: t) with
      | some k =>
          have hlt := length_rest_lt_of_readToken? hread
          have hk := dangles_of_notMem (notMem_of_readToken? hread)
          have htext := (text_append_rest_of_readToken? hread).symm
          rcases pieces_of_readToken? hread with hp | hp
          · rw [hp] at hcut
            obtain ⟨p, u, rfl⟩ := List.exists_cons_of_ne_nil hu
            obtain ⟨rfl, hrest⟩ := List.cons.inj hcut
            exact hstep hlt hk htext hrest
          · rw [hp] at hcut
            obtain ⟨w, hw, htexts⟩ := exists_of_consLiteral_eq_append hcut hu
            rw [htexts]
            exact hstep hlt hk htext hw
      | none =>
          rw [pieces_cons_of_none hread] at hcut
          rcases eq_or_ne c '\\' with rfl | hc
          · cases t with
            | nil =>
                obtain ⟨w, hw, -⟩ := exists_of_consLiteral_eq_append hcut hu
                rw [pieces, eq_comm, List.append_eq_nil_iff] at hw
                exact absurd hw.2 hv
            | cons d t =>
                -- the pair does not take the slash of a placeholder
                have hnone : readToken? (d :: t) = none := by
                  by_contra hne
                  obtain ⟨k, hk⟩ := Option.ne_none_iff_exists'.1 hne
                  exact h.1 ((prefix_of_readToken? hk).trans (List.prefix_append (d :: t) z))
                rw [pieces_cons_of_none hnone, consLiteral_consLiteral] at hcut
                obtain ⟨w, hw, htexts⟩ := exists_of_consLiteral_eq_append hcut hu
                rw [htexts]
                refine hstep ?_ rfl rfl hw
                rw [List.length_cons, List.length_cons]
                omega
          · obtain ⟨w, hw, htexts⟩ := exists_of_consLiteral_eq_append hcut hu
            rw [htexts]
            exact hstep (by simp) (dangles_cons hc []) rfl hw
termination_by t.length

/-- A piece of a text that sheltered text starts with is what raw text starts with, and only the last
piece can end within an escape pair: it does if the text does. -/
theorem Sheltered.isRaw_of_mem_pieces (h : Sheltered (t ++ z)) (hp : p ∈ pieces t) :
    (∃ r, IsRaw (p.text ++ r)) ∧ (dangles p.text = true → dangles t = true) := by
  obtain ⟨u, v, hcut⟩ := List.append_of_mem hp
  have hfront := dangles_of_cut h.spare hcut (List.cons_ne_nil p v)
  have htext : t = texts u ++ (p.text ++ texts v) := by
    rw [← texts_cons, ← texts_append, ← hcut]
    exact (texts_pieces t).symm
  have hraw := h.isRaw
  rw [htext, List.append_assoc, List.append_assoc] at hraw
  refine ⟨⟨_, (hraw.of_append hfront).2⟩, fun hd => ?_⟩
  cases v with
  | nil => rwa [htext, dangles_append hfront, texts_nil, List.append_nil]
  | cons q v =>
      have hback := dangles_of_cut (u := u ++ [p]) h.spare (by simpa using hcut)
        (List.cons_ne_nil q v)
      rw [texts_append, dangles_append hfront, texts_cons, texts_nil, List.append_nil, hd] at hback
      contradiction

/-- The text of a placeholder that has been found has no backslashes. -/
theorem notMem_of_hole_mem_pieces {i : Nat} {w : Text} (h : .hole i w ∈ pieces t) : '\\' ∉ w := by
  fun_induction pieces t with
  | case1 => contradiction
  | case2 c t k hk _ _ ih =>
      rcases List.mem_cons.1 h with heq | h
      · cases heq
        exact notMem_of_readToken? hk
      · exact ih h
  | case3 c t k _ _ _ ih | case4 c t _ ih =>
      refine ih ?_
      unfold consLiteral at h
      split at h
      · next hps => exact hps ▸ List.mem_cons_of_mem _ (by simpa using h)
      · simpa using h

/-! ### Escaped pieces -/

/-- The text of a piece that is escaped: all but placeholders with an expression. -/
def Piece.escaped? (es : List Text) : Piece → Option Text
  | literal t => some t
  | hole i t => if es[i]?.isSome then none else some t

/-- The texts in a style text that are **escaped** when it is printed. -/
def escaped (es : List Text) (t : Text) : List Text :=
  (pieces t).filterMap (Piece.escaped? es)

variable {es : List Text} {f g : Text → Text}

/-- Only what is done to the escaped texts matters. -/
theorem resolve_congr (h : ∀ w ∈ escaped es t, f w = g w) : resolve f es t = resolve g es t := by
  rw [resolve, resolve, List.flatMap_def, List.flatMap_def]
  refine congrArg List.flatten (List.map_congr_left fun p hp => ?_)
  have hw : ∀ w, p.escaped? es = some w → f w = g w := fun w hw =>
    h w (List.mem_filterMap.2 ⟨p, hp, hw⟩)
  cases p with
  | literal w => exact hw w rfl
  | hole i w =>
      cases he : es[i]? with
      | some e => simp [Piece.resolve, he]
      | none => simpa [Piece.resolve, he] using hw w (by simp [Piece.escaped?, he])

/-- What is escaped is the text of a piece. -/
theorem exists_of_mem_escaped {w : Text} (h : w ∈ escaped es t) : ∃ p ∈ pieces t, p.text = w := by
  obtain ⟨p, hp, hw⟩ := List.mem_filterMap.1 h
  refine ⟨p, hp, ?_⟩
  cases p with
  | literal w => exact Option.some.inj hw
  | hole i w =>
      rw [Piece.escaped?] at hw
      split at hw
      · contradiction
      · exact Option.some.inj hw

/-- If no escaped text dangles, the whole text does not. -/
theorem dangles_of_forall_escaped (h : ∀ w ∈ escaped es t, dangles w = false) :
    dangles t = false := by
  have hpieces : ∀ p ∈ pieces t, dangles p.text = false := by
    intro p hp
    cases p with
    | literal w => exact h w (List.mem_filterMap.2 ⟨_, hp, rfl⟩)
    | hole i w => exact dangles_of_notMem (notMem_of_hole_mem_pieces hp)
  rw [← texts_pieces t]
  generalize pieces t = ps at hpieces
  induction ps with
  | nil => rfl
  | cons p ps ih =>
      obtain ⟨hp, hps⟩ := List.forall_mem_cons.1 hpieces
      rw [List.flatMap_cons, dangles_append hp, ih hps]

/-- **What escaping makes of the escaped texts** of a text that sheltered text starts with. -/
theorem Sheltered.escape_of_mem_escaped (h : Sheltered (t ++ z)) {w : Text}
    (hw : w ∈ escaped es t) : escape w = if dangles w then w ++ ['\\'] else w := by
  obtain ⟨p, hp, rfl⟩ := exists_of_mem_escaped hw
  obtain ⟨⟨r, hraw⟩, -⟩ := h.isRaw_of_mem_pieces hp
  exact escape_of_isRaw_append hraw

/-- **Escaping changes nothing** in a text that sheltered text starts with, just if the text does not
end within an escape pair. -/
theorem Sheltered.escape_eq_self_iff (h : Sheltered (t ++ z)) :
    (∀ w ∈ escaped es t, escape w = w) ↔ dangles t = false := by
  have hpieces : ∀ w ∈ escaped es t, (escape w = w ↔ dangles w = false) ∧
      (dangles w = true → dangles t = true) := by
    intro w hw
    obtain ⟨p, hp, rfl⟩ := exists_of_mem_escaped hw
    obtain ⟨⟨r, hraw⟩, hlast⟩ := h.isRaw_of_mem_pieces hp
    exact ⟨RawText.escape_eq_self_iff hraw, hlast⟩
  constructor
  · exact fun hall => dangles_of_forall_escaped fun w hw => (hpieces w hw).1.1 (hall w hw)
  · intro ht w hw
    obtain ⟨hsame, hlast⟩ := hpieces w hw
    refine hsame.2 (Bool.eq_false_iff.2 fun hd => ?_)
    rw [hlast hd] at ht
    contradiction

end

end Placeholder

/-! ### Templates -/

section

variable {c : Char} {s t : Text}

/-- Behind a text without backslashes, pairs are those of what follows. -/
theorem Placeholder.pairsSpare_append (hs : '\\' ∉ s) : PairsSpare (s ++ t) ↔ PairsSpare t := by
  induction s with
  | nil => rfl
  | cons c s ih =>
      rw [List.mem_cons, not_or] at hs
      rw [List.cons_append, pairsSpare_cons (Ne.symm hs.1), ih hs.2]

/-- A placeholder does not begin in a text without the mark, with a pair in front of its star. -/
theorem Placeholder.not_prefix_append (hmark : ¬ mark <:+: s) (ht : ∀ c ∈ t.head?, c = '/') :
    ¬ '*' :: mark <+: s ++ t := by
  intro h
  rcases List.prefix_or_prefix_of_prefix h (List.prefix_append s t) with hs | ⟨q, hq⟩
  · exact hmark ((List.suffix_cons '*' mark).isInfix.trans hs.isInfix)
  · cases q with
    | nil =>
        rw [List.append_nil] at hq
        exact hmark (hq ▸ (List.suffix_cons '*' mark).isInfix)
    | cons d q =>
        rw [← hq, List.prefix_append_right_inj] at h
        have hd : d = '/' := by
          cases t with
          | nil => simp at h
          | cons e t => rw [(List.cons_prefix_cons.1 h).1, ht e rfl]
        have hslash : '/' ∉ '*' :: mark := by decide
        exact hslash (hq ▸ by simp [hd])

/-- A literal part without the mark in front of a placeholder, or of nothing. -/
theorem Placeholder.PairsSpare.append (hs : IsRaw s) (hmark : ¬ mark <:+: s)
    (ht : PairsSpare t) (hhead : ∀ c ∈ t.head?, c = '/') : PairsSpare (s ++ t) := by
  fun_induction dangles s with
  | case1 => exact ht
  | case2 => exact absurd hs (by decide)
  | case3 c s ih =>
      have hrest : ¬ mark <:+: s := fun h => hmark (h.trans (List.suffix_append ['\\', c] s).isInfix)
      refine ⟨fun h => ?_, ih (isRaw_pair.1 hs) hrest⟩
      exact not_prefix_append hrest hhead (List.cons_prefix_cons.1 h).2
  | case4 c s hend hpair ih =>
      have hb := ne_backslash hend hpair
      exact (pairsSpare_cons hb).2 (ih ((isRaw_cons_iff hb).1 hs).2.2
        fun h => hmark (h.trans (List.suffix_cons c s).isInfix))

/-- **The text of a template is sheltered** if none of its literal parts holds the mark. -/
theorem Extraction.sheltered_joinFrom {index : Nat} {qs : List Quasi}
    (hraw : ∀ q ∈ qs, IsRaw q.raw) (hmark : ∀ q ∈ qs, ¬ mark <:+: q.raw) :
    Sheltered (joinFrom index qs) := by
  fun_induction joinFrom index qs with
  | case1 => exact ⟨rfl, trivial⟩
  | case2 index q =>
      have hq := hraw q List.mem_cons_self
      have hspare := PairsSpare.append (t := []) hq (hmark q List.mem_cons_self) trivial (by simp)
      exact ⟨hq, by rwa [List.append_nil] at hspare⟩
  | case3 index q r qs ih =>
      obtain ⟨hrest, hspare⟩ := ih (fun p hp => hraw p (List.mem_cons_of_mem _ hp))
        fun p hp => hmark p (List.mem_cons_of_mem _ hp)
      have hplain : ∀ c ∈ create index, c ≠ '\\' ∧ c ≠ '\x60' ∧ c ≠ '$' := by
        refine fun c hc => ⟨?_, ?_, ?_⟩ <;> rintro rfl
        all_goals exact notMem_create rfl (by decide) index hc
      rw [List.append_assoc]
      refine ⟨(hraw q List.mem_cons_self).append (hrest.plain_append hplain) (by simp [create]), ?_⟩
      refine PairsSpare.append (hraw q List.mem_cons_self) (hmark q List.mem_cons_self) ?_
        (by simp [create])
      exact (pairsSpare_append fun h => (hplain _ h).1 rfl).2 hspare

end

end StyleBlocks
