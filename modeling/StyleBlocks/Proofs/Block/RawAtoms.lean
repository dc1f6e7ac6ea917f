import Mathlib.Data.List.Chain
import StyleBlocks.Proofs.Block.Extracted

/-!
# Atoms of raw text

Raw text splits into characters and escape pairs. What makes it raw shows between neighbours: no
dollar sign stands in front of a brace, and neither a bare backtick nor a bare backslash is left.
`Sound` says this of atoms, and more that keeps the atoms of a template whole when its style text is
cut: no line feed follows a backslash, and no placeholder follows a star. All of it holds for atoms
with and without their indentation.

## Main results

* `Sound.of_indent`: atoms without their indentation are sound.
* `RawText.sound_atoms`: the atoms of raw text are sound.
* `Extraction.sound_atoms`: the atoms of a template are sound.
-/

namespace StyleBlocks

open Placeholder Template

namespace Placeholder

/-- Whether an atom may stand in front of another one. -/
structure Precedes (a b : Piece) : Prop where
  brace : b = .literal ['{'] → a ≠ .literal ['$']
  newline : b = .literal ['\n'] → a.text.getLast? ≠ some '\\'
  hole : b.isLiteral = false → a.text.getLast? ≠ some '*'

/-- Atoms are **sound** if they stand for raw text, and no line feed follows a backslash and no
placeholder a star. -/
structure Sound (m : List Piece) : Prop where
  isAtom : ∀ a ∈ m, IsAtom a
  backslash : .literal ['\\'] ∉ m
  backtick : .literal ['\x60'] ∉ m
  chain : m.IsChain Precedes

section

variable {front : Nat → Text} {line : Nat} {m u v : List Piece} {a : Piece} {t : Text}

/-- No atoms are sound. -/
theorem Sound.nil : Sound [] :=
  ⟨by simp, by simp, by simp, List.isChain_nil⟩

/-- A run of sound atoms is sound. -/
theorem Sound.of_infix (h : Sound m) (hu : u <:+: m) : Sound u where
  isAtom a ha := h.isAtom a (hu.subset ha)
  backslash ha := h.backslash (hu.subset ha)
  backtick ha := h.backtick (hu.subset ha)
  chain := h.chain.infix hu

/-- Atoms behind one of sound atoms are sound. -/
theorem Sound.tail (h : Sound (a :: m)) : Sound m :=
  h.of_infix (List.suffix_cons a m).isInfix

/-- Sound atoms whose neighbours fit together are sound together. -/
theorem Sound.append (hu : Sound u) (hv : Sound v)
    (h : ∀ a ∈ u.getLast?, ∀ b ∈ v.head?, Precedes a b) : Sound (u ++ v) where
  isAtom a ha := (List.mem_append.1 ha).elim (hu.isAtom a) (hv.isAtom a)
  backslash ha := (List.mem_append.1 ha).elim hu.backslash hv.backslash
  backtick ha := (List.mem_append.1 ha).elim hu.backtick hv.backtick
  chain := List.isChain_append.2 ⟨hu.chain, hv.chain, h⟩

/-- Anything may follow a line feed. -/
theorem precedes_newline (b : Piece) : Precedes (.literal ['\n']) b :=
  ⟨fun _ => by simp, fun _ => by simp, fun _ => by simp⟩

/-- Indenting leaves the first atom where it is. -/
theorem head?_indent (m : List Piece) : (indent front line m).head? = m.head? := by
  cases m with
  | nil => rfl
  | cons a m =>
      rw [indent]
      split <;> rfl

/-- Indenting adds atoms and takes none away. -/
theorem sublist_indent (m : List Piece) : m.Sublist (indent front line m) := by
  induction m generalizing line with
  | nil => exact List.Sublist.refl _
  | cons a m ih =>
      rw [indent]
      split
      · exact (ih.trans (List.sublist_append_right _ _)).cons_cons a
      · exact ih.cons_cons a

/-- **Atoms without their indentation are sound**: what follows a line feed does not matter. -/
theorem Sound.of_indent (h : Sound (indent front line m)) : Sound m where
  isAtom a ha := h.isAtom a ((sublist_indent m).subset ha)
  backslash ha := h.backslash ((sublist_indent m).subset ha)
  backtick ha := h.backtick ((sublist_indent m).subset ha)
  chain := by
    replace h := h.chain
    induction m generalizing line with
    | nil => exact List.isChain_nil
    | cons a m ih =>
        rw [indent] at h
        split at h
        · next ha =>
            obtain ⟨-, h⟩ := List.isChain_cons.1 h
            exact ha ▸ (ih h.right_of_append).cons fun b _ => precedes_newline b
        · obtain ⟨hhead, h⟩ := List.isChain_cons.1 h
          exact (ih h).cons (head?_indent m ▸ hhead)

/-- The text of atoms ends as the last of them. -/
theorem getLast?_texts (hm : ∀ a ∈ m, IsAtom a) :
    (texts m).getLast? = m.getLast?.bind fun a => a.text.getLast? := by
  rcases List.eq_nil_or_concat' m with rfl | ⟨u, a, rfl⟩
  · rfl
  · have hne := (hm a (by simp)).text_ne_nil
    rw [texts_append, List.getLast?_append, Option.or_of_isSome] <;> simp [hne]

/-- No sound atoms end in an escaped line feed. -/
theorem Sound.not_escapedBreak (h : Sound m) : ¬ ['\\', '\n'] <:+ texts m := by
  rintro ⟨p, hp⟩
  rcases List.eq_nil_or_concat' m with rfl | ⟨u, a, rfl⟩
  · simp at hp
  have hlast := getLast?_texts h.isAtom
  rw [← hp] at hlast
  have ha : a = .literal ['\n'] := by
    have hmem : '\n' ∈ a.text := List.mem_of_getLast? (by simpa using hlast.symm)
    exact (h.isAtom a (by simp)).newline_or.resolve_right fun hne => hne.2 hmem
  subst ha
  have hu : texts u = p ++ ['\\'] := by
    rw [texts_append, texts_cons, texts_nil, text_literal, List.append_nil] at hp
    have hcut : p ++ ['\\'] ++ ['\n'] = texts u ++ ['\n'] := by simpa using hp
    exact (List.append_cancel_right hcut).symm
  have hlast := getLast?_texts (m := u) fun b hb => h.isAtom b (List.mem_append_left _ hb)
  rw [hu, List.getLast?_concat, eq_comm, Option.bind_eq_some_iff] at hlast
  obtain ⟨b, hb, hlast⟩ := hlast
  exact ((List.isChain_append.1 h.chain).2.2 b hb _ rfl).newline rfl hlast

end

end Placeholder

/-! ### Raw text -/

namespace Template.RawText

/-- The atoms of a raw text: its escape pairs and its other characters. -/
def atoms : Text → List Piece
  | '\\' :: c :: t => .literal ['\\', c] :: atoms t
  | c :: t => .literal [c] :: atoms t
  | [] => []

/-- The atoms of a text, put together, are the text. -/
theorem texts_atoms (t : Text) : texts (atoms t) = t := by
  fun_induction atoms t <;> simp [*]

/-- Raw text has no placeholders of its own. -/
theorem isLiteral_of_mem_atoms {t : Text} {a : Piece} (h : a ∈ atoms t) : a.isLiteral = true := by
  fun_induction atoms t with
  | case1 c t ih =>
      rcases List.mem_cons.1 h with rfl | h
      · rfl
      · exact ih h
  | case2 c t _ ih =>
      rcases List.mem_cons.1 h with rfl | h
      · rfl
      · exact ih h
  | case3 => simp at h

/-- A character that starts no escape pair is an atom of its own. -/
theorem atoms_cons {c : Char} (hc : c ≠ '\\') (t : Text) :
    atoms (c :: t) = .literal [c] :: atoms t := by
  rw [atoms]
  exact fun _ _ h _ => hc h

/-- The first atom of a text is the first character, if that starts no escape pair. -/
theorem eq_cons_of_head?_atoms {c : Char} {t : Text} (h : (atoms t).head? = some (.literal [c])) :
    ∃ u, t = c :: u := by
  fun_cases atoms t with
  | case1 d t => simp [atoms] at h
  | case2 d t hpair =>
      rw [atoms] at h
      · exact ⟨t, by simpa using h⟩
      · exact hpair
  | case3 => simp [atoms] at h

/-- What may stand in front of the atoms of a raw text: not a dollar sign if a brace comes first,
and not a backslash if a line feed does. -/
theorem precedes_head?_atoms {a b : Piece} {t : Text} (hb : b ∈ (atoms t).head?)
    (hbrace : t.head? = some '{' → a ≠ .literal ['$'])
    (hbreak : t.head? = some '\n' → a.text.getLast? ≠ some '\\') : Precedes a b where
  brace := by
    rintro rfl
    obtain ⟨u, rfl⟩ := eq_cons_of_head?_atoms hb
    exact hbrace rfl
  newline := by
    rintro rfl
    obtain ⟨u, rfl⟩ := eq_cons_of_head?_atoms hb
    exact hbreak rfl
  hole hlit := by
    rw [isLiteral_of_mem_atoms (List.mem_of_mem_head? hb)] at hlit
    contradiction

/-- **The atoms of a literal part are sound**, if it has no escaped line feed. -/
theorem sound_of_readSegment {t : Text} {s : Segment} (h : readSegment t = some s)
    (hbreak : ¬ ['\\', '\n'] <:+: s.raw) : Sound (atoms s.raw) := by
  fun_induction readSegment t generalizing s with
  | case1 => simp at h
  | case2 => simp at h
  | case3 c t ih =>
      obtain ⟨u, hu, rfl⟩ := Option.map_eq_some_iff.1 h
      have hrest := ih hu fun hi => hbreak (hi.trans (List.suffix_append ['\\', c] u.raw).isInfix)
      have hc : c ≠ '\n' := fun hc => hbreak ⟨[], u.raw, by simp [Segment.cons, hc]⟩
      have hpair : Sound [.literal ['\\', c]] :=
        ⟨by simpa using IsAtom.pair c hc, by simp, by simp, List.isChain_singleton _⟩
      refine hpair.append hrest fun a ha b hb => precedes_head?_atoms hb ?_ fun hline hlast => ?_
      · obtain rfl : .literal ['\\', c] = a := by simpa using ha
        simp
      · obtain rfl : .literal ['\\', c] = a := by simpa using ha
        obtain ⟨w, hw⟩ : ∃ w, u.raw = '\n' :: w := List.head?_eq_some_iff.1 hline
        obtain rfl : c = '\\' := by simpa using hlast
        exact hbreak ⟨['\\'], w, by simp [Segment.cons, hw]⟩
  | case4 t =>
      cases h
      exact .nil
  | case5 t =>
      cases h
      exact .nil
  | case6 c t hb hp hq hh ih =>
      obtain ⟨u, hu, rfl⟩ := Option.map_eq_some_iff.1 h
      have ht := eq_append_of_readSegment hu
      have hslash := ne_backslash hb hp
      have hrest := ih hu fun hi => hbreak (hi.trans (List.suffix_cons c u.raw).isInfix)
      have hchar : Sound [.literal [c]] :=
        ⟨by simpa using IsAtom.char c, by simpa using hslash.symm, by simpa [eq_comm] using hq,
          List.isChain_singleton _⟩
      refine atoms_cons hslash _ ▸
        hchar.append hrest fun a ha b hb => precedes_head?_atoms hb (fun hhead => ?_) fun _ => ?_
      · obtain rfl : .literal [c] = a := by simpa using ha
        obtain ⟨w, hw⟩ : ∃ w, u.raw = '{' :: w := List.head?_eq_some_iff.1 hhead
        rw [hw] at ht
        simpa using fun hc => hh _ hc ht
      · obtain rfl : .literal [c] = a := by simpa using ha
        simpa using hslash

/-- **The atoms of raw text are sound**, if it has no escaped line feed. -/
theorem sound_atoms {t : Text} (h : IsRaw t) (hbreak : ¬ ['\\', '\n'] <:+: t) : Sound (atoms t) :=
  sound_of_readSegment h hbreak

end Template.RawText

/-! ### Templates -/

/-- A placeholder is sound by itself. -/
theorem Placeholder.sound_hole {i : Nat} (hi : i < indexLimit) : Sound [.hole i (create i)] :=
  ⟨by simpa using IsAtom.hole i hi, by simp, by simp, List.isChain_singleton _⟩

/-- The text of a placeholder ends in a slash. -/
theorem Placeholder.getLast?_create (i : Nat) : (create i).getLast? = some '/' := by
  have hcut : create i = ('/' :: '*' :: mark ++ ':' :: Text.ofNat i ++ ['*']) ++ ['/'] := by
    simp [create]
  rw [hcut, List.getLast?_concat]

/-- **The atoms of a template are sound**, if none of its literal parts has an escaped line feed and
none in front of a hole ends in a star. -/
theorem Extraction.sound_atoms {index : Nat} {qs : List Quasi}
    (hraw : ∀ q ∈ qs, RawText.IsRaw q.raw)
    (hbreak : ∀ q ∈ qs, ¬ ['\\', '\n'] <:+: q.raw) (hstar : ∀ q ∈ qs.dropLast, ¬ ['*'] <:+ q.raw)
    (hi : index + qs.length ≤ indexLimit) : Sound (atoms RawText.atoms index qs) := by
  fun_induction joinFrom index qs with
  | case1 => exact .nil
  | case2 index q =>
      exact RawText.sound_atoms (hraw q List.mem_cons_self) (hbreak q List.mem_cons_self)
  | case3 index q r qs ih =>
      rw [List.length_cons] at hi
      have hq := RawText.sound_atoms (hraw q List.mem_cons_self) (hbreak q List.mem_cons_self)
      have hrest := ih (fun p hp => hraw p (List.mem_cons_of_mem _ hp))
        (fun p hp => hbreak p (List.mem_cons_of_mem _ hp))
        (fun p hp => hstar p (by simp [hp])) (by omega)
      have hhole :
          Sound (.hole index (create index) :: atoms RawText.atoms (index + 1) (r :: qs)) := by
        refine (sound_hole (by omega)).append (u := [_]) hrest fun a ha b hb => ?_
        obtain rfl : .hole index (create index) = a := by simpa using ha
        exact ⟨fun _ => by simp, fun _ => by simp [getLast?_create],
          fun _ => by simp [getLast?_create]⟩
      refine hq.append hhole fun a ha b hb => ?_
      obtain rfl : .hole index (create index) = b := by simpa using hb
      refine ⟨fun h => by simp at h, fun h => by simp at h, fun _ hlast => ?_⟩
      have hend := getLast?_texts hq.isAtom
      rw [RawText.texts_atoms, ha, Option.bind_some, hlast] at hend
      exact hstar q (by simp) (List.singleton_suffix_iff_getLast?_eq_some.2 hend)

end StyleBlocks
