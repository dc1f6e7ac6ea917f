import StyleBlocks.Proofs.Block.Placement
import StyleBlocks.Proofs.Document.Emission
import StyleBlocks.Proofs.Document.RoundTrip

/-!
# Every expression is printed once

A placeholder becomes its hole again if a fragment has it as a whole. Fragments are cut between
tokens, and no token ends within a placeholder unless it is a comment with a star in front of it. Apart
from that, every hole of a template is printed once, in order, wherever it stands in the style sheet,
and nothing of a placeholder is left. Escaped line feeds do no harm: the indentation that is printed
twice behind them is blank.

## Main results

* `RawText.paired_lineAtoms`: the atoms of raw text, its line feeds apart, are paired.
* `Sheet.Fragment.fills_emitted`: a fragment that no placeholder is cut by has all its holes filled.
* `Hosting.fills_fragments`: so has a style sheet, and its template is restored between them.
* `Assembly.expressions_emitted`: every expression of a block is printed once, in order, and nothing
  of its placeholder is left.
-/

namespace StyleBlocks

open Placeholder Sheet Template

/-- Comments **spare placeholders** in a style text if none of them ends within one. -/
def CommentsSpare (t : Text) : Prop :=
  match Token.tokenize t with
  | .ok ts => ∀ k ∈ ts, k.kind = .comment →
      ∀ p ∈ findAll t, ¬ (p.span.start < k.stop ∧ k.stop < p.span.stop)
  | .error _ => True

instance (t : Text) : Decidable (CommentsSpare t) :=
  match h : Token.tokenize t with
  | .ok ts => decidable_of_iff (∀ k ∈ ts, k.kind = .comment →
      ∀ p ∈ findAll t, ¬ (p.span.start < k.stop ∧ k.stop < p.span.stop)) (by rw [CommentsSpare, h])
  | .error _ => .isTrue (by rw [CommentsSpare, h]; trivial)

namespace Placeholder

/-- The text of a hole and its index. -/
def Piece.hole? : Piece → Option (Text × Nat)
  | literal _ => none
  | hole i t => some (t, i)

/-- The holes among pieces, in order. -/
def holesOf (m : List Piece) : List (Text × Nat) :=
  m.filterMap Piece.hole?

/-- The **skeleton** of pieces: the characters of their texts, and `none` for every hole. -/
def skeleton (m : List Piece) : List (Option Char) :=
  m.flatMap fun
    | .literal t => t.map some
    | .hole .. => [none]

/-- A skeleton **escapes** another one if it is that with backslashes put in. -/
inductive Escapes : List (Option Char) → List (Option Char) → Prop
  | nil : Escapes [] []
  | cons {s t : List (Option Char)} (c : Option Char) (h : Escapes s t) : Escapes (c :: s) (c :: t)
  | slash {s t : List (Option Char)} (h : Escapes s t) : Escapes s (some '\\' :: t)

/-- Pieces **fill** atoms if they have the expressions for their placeholders as holes, and between
these their text with backslashes put in. -/
structure Fills (es : List Text) (m ps : List Piece) : Prop where
  holesOf : holesOf ps = (indices m).filterMap fun i => es[i]?.map (·, i)
  escapes : Escapes (skeleton m) (skeleton ps)

section

variable {es : List Text} {m u v ps qs : List Piece} {t : Text} {s s' w x y : List (Option Char)}

@[simp] theorem skeleton_nil : skeleton [] = [] := rfl

@[simp] theorem skeleton_literal (t : Text) (m : List Piece) :
    skeleton (.literal t :: m) = t.map some ++ skeleton m := rfl

@[simp] theorem skeleton_hole (i : Nat) (t : Text) (m : List Piece) :
    skeleton (.hole i t :: m) = none :: skeleton m := rfl

/-- The skeleton of pieces is told piece by piece. -/
@[simp] theorem skeleton_append (u v : List Piece) : skeleton (u ++ v) = skeleton u ++ skeleton v :=
  List.flatMap_append

/-- The holes of pieces are told piece by piece. -/
@[simp] theorem holesOf_append (u v : List Piece) : holesOf (u ++ v) = holesOf u ++ holesOf v :=
  List.filterMap_append

/-- Without holes, the skeleton of pieces is their text. -/
theorem skeleton_of_isLiteral (hm : ∀ a ∈ m, a.isLiteral = true) :
    skeleton m = (texts m).map some := by
  induction m with
  | nil => rfl
  | cons a m ih =>
      have ih := ih fun b hb => hm b (List.mem_cons_of_mem _ hb)
      cases a with
      | literal t => rw [skeleton_literal, ih, texts_cons, text_literal, List.map_append]
      | hole i t => simpa [Piece.isLiteral] using hm _ List.mem_cons_self

/-- Text has no holes. -/
theorem holesOf_of_isLiteral (hm : ∀ a ∈ m, a.isLiteral = true) : holesOf m = [] := by
  rw [holesOf, List.filterMap_eq_nil_iff]
  intro a ha
  cases a with
  | literal t => rfl
  | hole i t => simpa [Piece.isLiteral] using hm _ ha

/-- What does not start within the mark does not make one up with what is in front of it. -/
theorem mark_infix_append (h : ∀ c ∈ y.head?, c ∉ mark.map some)
    (hmark : mark.map some <:+: x ++ y) : mark.map some <:+: x ∨ mark.map some <:+: y := by
  rcases List.infix_append_iff_ne_nil.1 hmark with hx | hy | ⟨l₁, l₂, -, hne, hcut, -, r, rfl⟩
  · exact Or.inl hx
  · exact Or.inr hy
  · obtain ⟨c, l, rfl⟩ := List.exists_cons_of_ne_nil hne
    exact absurd (by rw [hcut]; simp) (h c rfl)

/-- The mark is in the characters of a text just if it is in the text. -/
theorem mark_infix_map_iff : mark.map some <:+: t.map some ↔ mark <:+: t := by
  refine ⟨fun h => ?_, fun h => h.map some⟩
  simpa [List.filterMap_map] using h.filterMap id

/-- No text between holes has the mark if the skeleton does not have it. -/
theorem unmarked_of_notMem_skeleton (h : ¬ mark.map some <:+: skeleton m) : Unmarked m := by
  rintro lits ⟨u, v, rfl⟩ hl hmark
  refine h ((mark_infix_map_iff.2 hmark).trans ⟨skeleton u, skeleton v, ?_⟩)
  rw [skeleton_append, skeleton_append, skeleton_of_isLiteral hl]

/-! ### Escaping -/

/-- Backslashes are put into the parts of a skeleton one by one. -/
theorem Escapes.append (h : Escapes s x) (h' : Escapes s' y) : Escapes (s ++ s') (x ++ y) := by
  induction h with
  | nil => exact h'
  | cons c _ ih => exact .cons c ih
  | slash _ ih => exact .slash ih

/-- What is escaped by two skeletons put together falls into two. -/
theorem Escapes.exists_append (h : Escapes s (x ++ y)) :
    ∃ s₁ s₂, s = s₁ ++ s₂ ∧ Escapes s₁ x ∧ Escapes s₂ y := by
  induction x generalizing s with
  | nil => exact ⟨[], s, rfl, .nil, h⟩
  | cons c x ih =>
      cases h with
      | cons _ h =>
          obtain ⟨s₁, s₂, rfl, h₁, h₂⟩ := ih h
          exact ⟨c :: s₁, s₂, rfl, .cons c h₁, h₂⟩
      | slash h =>
          obtain ⟨s₁, s₂, rfl, h₁, h₂⟩ := ih h
          exact ⟨s₁, s₂, rfl, .slash h₁, h₂⟩

/-- A skeleton without backslashes escapes itself only. -/
theorem Escapes.eq_of_notMem (h : Escapes s x) (hx : some '\\' ∉ x) : s = x := by
  induction h with
  | nil => rfl
  | cons c _ ih => rw [ih fun hc => hx (List.mem_cons_of_mem _ hc)]
  | slash _ => exact absurd List.mem_cons_self hx

/-- Escaping brings about nothing without backslashes. -/
theorem Escapes.infix_of_infix (h : Escapes s x) (hw : some '\\' ∉ w) (hpart : w <:+: x) :
    w <:+: s := by
  obtain ⟨p, q, rfl⟩ := hpart
  obtain ⟨s', s₃, rfl, h, -⟩ := h.exists_append
  obtain ⟨s₁, s₂, rfl, -, h₂⟩ := h.exists_append
  exact ⟨s₁, s₃, by rw [h₂.eq_of_notMem hw]⟩

/-- Escaped text escapes the text. -/
theorem escapes_escape (t : Text) : Escapes (t.map some) ((RawText.escape t).map some) := by
  fun_induction RawText.escape t with
  | case1 => exact .nil
  | case2 => exact .cons _ (.slash .nil)
  | case3 c t ih => exact .cons _ (.cons _ ih)
  | case4 t ih => exact .slash (.cons _ ih)
  | case5 t ih => exact .slash (.cons _ (.cons _ ih))
  | case6 c t _ _ _ _ ih => exact .cons _ ih

/-! ### Filling -/

/-- No pieces fill no atoms. -/
theorem Fills.nil : Fills es [] [] :=
  ⟨rfl, .nil⟩

/-- Atoms are filled part by part. -/
theorem Fills.append (h : Fills es u ps) (h' : Fills es v qs) : Fills es (u ++ v) (ps ++ qs) where
  holesOf := by rw [holesOf_append, h.holesOf, h'.holesOf, indices_append, List.filterMap_append]
  escapes := by
    rw [skeleton_append, skeleton_append]
    exact h.escapes.append h'.escapes

/-- The atoms of a text are no holes. -/
theorem skeleton_atoms (t : Text) : skeleton (RawText.atoms t) = t.map some := by
  rw [skeleton_of_isLiteral fun a ha => RawText.isLiteral_of_mem_atoms ha, RawText.texts_atoms]

/-- Raw text has no holes. -/
theorem holesOf_atoms (t : Text) : holesOf (RawText.atoms t) = [] :=
  holesOf_of_isLiteral fun _ ha => RawText.isLiteral_of_mem_atoms ha

/-- What pieces are printed as fills them, if there are expressions for all placeholders. -/
theorem fills_flatMap_emitted (hm : ∀ i ∈ indices m, i < es.length) :
    Fills es m (m.flatMap (Piece.emitted es)) := by
  induction m with
  | nil => exact .nil
  | cons a m ih =>
      cases a with
      | literal t =>
          refine Fills.append (u := [.literal t]) ⟨holesOf_atoms _, ?_⟩ (ih hm)
          simpa [Piece.emitted, skeleton_atoms] using escapes_escape t
      | hole i t =>
          obtain ⟨hi, hm⟩ := List.forall_mem_cons.1 hm
          refine Fills.append (u := [.hole i t]) ?_ (ih hm)
          rw [Piece.emitted, List.getElem?_eq_getElem hi]
          exact ⟨by simp [Placeholder.holesOf, Piece.hole?, indices, hi], .cons none .nil⟩

/-- The skeleton is the same when neighbouring texts have grown together. -/
theorem skeleton_glue (m : List Piece) : skeleton (glue m) = skeleton m := by
  have hcons : ∀ t ps, skeleton (consLiteral t ps) = t.map some ++ skeleton ps := by
    intro t ps
    unfold consLiteral
    split <;> simp
  induction m with
  | nil => rfl
  | cons a m ih => cases a <;> simp [glue, hcons, ih]

/-- The indices are the same when neighbouring texts have grown together. -/
theorem indices_glue (m : List Piece) : indices (glue m) = indices m := by
  have hcons : ∀ t ps, indices (consLiteral t ps) = indices ps := by
    intro t ps
    unfold consLiteral
    split <;> simp [indices]
  induction m with
  | nil => rfl
  | cons a m ih => cases a <;> simp [glue, hcons, indices, ih]

/-- What the text of atoms is printed as fills them. -/
theorem fills_emitted (hm : ∀ a ∈ m, IsAtom a) (hu : Unmarked m)
    (hi : ∀ i ∈ indices m, i < es.length) : Fills es m (emitted es (texts m)) := by
  have hglue : Fills es (glue m) ((glue m).flatMap (Piece.emitted es)) :=
    fills_flatMap_emitted (by rwa [indices_glue])
  rw [emitted, pieces_texts hm hu]
  exact ⟨indices_glue m ▸ hglue.holesOf, skeleton_glue m ▸ hglue.escapes⟩

end

end Placeholder

/-! ### Fragments -/

namespace Sheet

/-- **A fragment that no placeholder is cut by** has all its holes filled. -/
theorem Fragment.fills_emitted {es : List Text} {m : List Piece} {f : Fragment}
    (hm : ∀ a ∈ m, IsAtom a) (hu : Unmarked m) (hi : ∀ i ∈ indices m, i < es.length)
    (hf : f.text = Placeholder.texts m) (howner : f.IsOfNode) : Fills es m (f.emitted es) := by
  obtain ⟨t, owner, boundary⟩ := f
  obtain ⟨o, ho, rfl⟩ : ∃ o ≠ Owner.root, owner = some o := howner
  obtain rfl : t = Placeholder.texts m := hf
  have htext := Placeholder.fills_emitted hm hu hi
  match o with
  | .root => contradiction
  | .rule | .atRule | .declaration => exact htext
  | .comment =>
      simp only [emitted]
      split
      · next hole hhole =>
          obtain ⟨i, hread, hsome⟩ := Option.bind_eq_some_iff.1 hhole
          obtain ⟨e, he, rfl⟩ := Option.map_eq_some_iff.1 hsome
          obtain rfl := eq_hole_of_readFragment? hm hu hread
          exact ⟨by simp [Placeholder.holesOf, Piece.hole?, indices, he], .cons none .nil⟩
      · exact htext

/-- Fragments that cut atoms have all their holes filled. -/
theorem Fragment.fills_flatMap_emitted {es : List Text} {fs : List Fragment} {m : List Piece}
    (hm : ∀ a ∈ m, IsAtom a) (hu : Unmarked m) (hi : ∀ i ∈ indices m, i < es.length)
    (hcuts : Cuts (fs.map Fragment.text) m) (howner : ∀ f ∈ fs, f.IsOfNode) :
    Fills es m (fs.flatMap (Fragment.emitted es)) := by
  induction fs generalizing m with
  | nil =>
      obtain rfl : m = [] := hcuts
      exact .nil
  | cons f fs ih =>
      obtain ⟨u, v, rfl, hf, hv⟩ := hcuts
      rw [indices_append] at hi
      have hfirst : Fills es u (f.emitted es) :=
        f.fills_emitted (fun a ha => hm a (List.mem_append_left _ ha))
          (hu.of_infix (List.prefix_append u v).isInfix)
          (fun i h => hi i (List.mem_append_left _ h)) hf.symm (howner f List.mem_cons_self)
      exact hfirst.append (ih (fun a ha => hm a (List.mem_append_right _ ha))
        (hu.of_infix (List.suffix_append u v).isInfix)
        (fun i h => hi i (List.mem_append_right _ h)) hv
        fun g hg => howner g (List.mem_cons_of_mem _ hg))

end Sheet

/-! ### Paired atoms -/

namespace Template.RawText

/-- The atoms of a raw text, with line feeds as atoms of their own: its other escape pairs and its
characters. -/
def lineAtoms : Text → List Piece
  | '\\' :: '\n' :: t => .literal ['\\'] :: .literal ['\n'] :: lineAtoms t
  | '\\' :: c :: t => .literal ['\\', c] :: lineAtoms t
  | c :: t => .literal [c] :: lineAtoms t
  | [] => []

/-- The atoms of a text make it up. -/
theorem texts_lineAtoms (t : Text) : texts (lineAtoms t) = t := by
  fun_induction lineAtoms t <;> simp [*]

/-- The atoms of a text are atoms. -/
theorem isAtom_of_mem_lineAtoms {t : Text} : ∀ a ∈ lineAtoms t, IsAtom a := by
  fun_induction lineAtoms t with
  | case1 t ih => simpa [IsAtom.char] using ih
  | case2 c t hc ih => exact List.forall_mem_cons.2 ⟨.pair c (by simpa using hc), ih⟩
  | case3 c t _ _ ih => exact List.forall_mem_cons.2 ⟨.char c, ih⟩
  | case4 => simp

/-- The atoms of a text are no holes. -/
theorem isLiteral_of_mem_lineAtoms {t : Text} : ∀ a ∈ lineAtoms t, a.isLiteral = true := by
  fun_induction lineAtoms t with
  | case1 t ih => simpa [Piece.isLiteral] using ih
  | case2 c t hc ih => exact List.forall_mem_cons.2 ⟨rfl, ih⟩
  | case3 c t _ _ ih => exact List.forall_mem_cons.2 ⟨rfl, ih⟩
  | case4 => simp

end Template.RawText

namespace Placeholder

variable {a : Piece} {m u v : List Piece}

/-- No atoms are paired. -/
theorem Paired.nil : Paired [] :=
  ⟨by simp, fun u v h => by simp at h⟩

/-- An atom in front of paired ones is paired with them if a line feed follows it when it is a
backslash. -/
theorem Paired.cons (ha : IsAtom a) (hm : Paired m)
    (h : a = .literal ['\\'] → m.head? = some (.literal ['\n'])) : Paired (a :: m) where
  isAtom := List.forall_mem_cons.2 ⟨ha, hm.isAtom⟩
  newline u v hcut := by
    cases u with
    | nil =>
        obtain ⟨rfl, rfl⟩ := List.cons.inj hcut
        exact h rfl
    | cons b u => exact hm.newline u v (List.cons.inj hcut).2

/-- Paired atoms behind paired atoms are paired. -/
theorem Paired.append (hu : Paired u) (hv : Paired v) : Paired (u ++ v) := by
  induction u with
  | nil => exact hv
  | cons a u ih =>
      refine .cons (hu.isAtom a List.mem_cons_self) (ih hu.tail) fun ha => ?_
      have hhead := hu.newline [] u (by rw [ha]; rfl)
      exact List.head?_append.trans (by rw [hhead, Option.some_or])

/-- Atoms without their indentation are paired: what follows a line feed does not matter. -/
theorem Paired.of_indent {front : Nat → Text} {line : Nat} (h : Paired (indent front line m))
    (hm : ∀ a ∈ m, IsAtom a) : Paired m where
  isAtom := hm
  newline u v hcut := by
    subst hcut
    rw [indent_append fun a ha => hm a (List.mem_append_left _ ha), indent] at h
    simpa [head?_indent] using h.newline _ _ rfl

/-- **The atoms of a literal part are paired**: it does not end in a bare backslash. -/
theorem paired_lineAtoms_of_readSegment {t : Text} {s : RawText.Segment}
    (h : RawText.readSegment t = some s) : Paired (RawText.lineAtoms s.raw) := by
  fun_induction RawText.readSegment t generalizing s with
  | case1 => simp at h
  | case2 => simp at h
  | case3 c t ih =>
      obtain ⟨q, hq, rfl⟩ := Option.map_eq_some_iff.1 h
      by_cases hc : c = '\n'
      · subst hc
        exact .cons (.char _) (.cons (.char _) (ih hq) (by simp)) fun _ => rfl
      · have hcons : RawText.lineAtoms ('\\' :: c :: q.raw) =
            .literal ['\\', c] :: RawText.lineAtoms q.raw := by
          rw [RawText.lineAtoms]
          exact fun h => hc h
        exact hcons ▸ .cons (.pair c hc) (ih hq) (by simp)
  | case4 t =>
      cases h
      exact .nil
  | case5 t =>
      cases h
      exact .nil
  | case6 c t hend hpair _ _ ih =>
      obtain ⟨q, hq, rfl⟩ := Option.map_eq_some_iff.1 h
      have hb := RawText.ne_backslash hend hpair
      have hcons : RawText.lineAtoms (c :: q.raw) = .literal [c] :: RawText.lineAtoms q.raw := by
        rw [RawText.lineAtoms]
        · exact fun _ h _ => hb h
        · exact fun _ _ h _ => hb h
      exact hcons ▸ .cons (.char c) (ih hq) fun h => absurd (by simpa using h) hb

/-- The atoms of a raw text are paired. -/
theorem paired_lineAtoms {t : Text} (h : RawText.IsRaw t) : Paired (RawText.lineAtoms t) :=
  paired_lineAtoms_of_readSegment h

/-- A placeholder among pieces is found where it stands. -/
theorem mem_foundFrom (o : Nat) (u : List Piece) (i : Nat) (t : Text) (v : List Piece) :
    ⟨i, ⟨o + Text.byteSize (texts u), o + Text.byteSize (texts u) + Text.byteSize t⟩⟩ ∈
      foundFrom o (u ++ .hole i t :: v) := by
  induction u generalizing o with
  | nil => exact List.mem_cons_self
  | cons a u ih =>
      have ih := ih (o + Text.byteSize a.text)
      rw [Nat.add_assoc o, ← Text.byteSize_append, ← texts_cons] at ih
      cases a with
      | literal w => exact ih
      | hole j w => exact List.mem_cons_of_mem _ ih

/-- No comment breaks a placeholder among atoms if comments spare placeholders in their text. -/
theorem not_breaks_of_commentsSpare {ts : List Sheet.Token} (hm : ∀ a ∈ m, IsAtom a)
    (hu : Unmarked m) (hts : Token.tokenize (texts m) = .ok ts) (h : CommentsSpare (texts m)) :
    ∀ k ∈ ts, k.kind = .comment → ∀ u v, m = u ++ v →
      k.start = Text.byteSize (texts u) → ¬ Breaks v k.text := by
  rintro k hk hcomment u v rfl hstart ⟨w, i, x, rfl, htext⟩
  rw [CommentsSpare, hts, findAll_texts hm hu] at h
  have hfound := mem_foundFrom 0 (u ++ w) i (create i) x
  rw [List.append_assoc] at hfound
  refine h k hk hcomment _ hfound ?_
  have hslash : Text.byteSize ['/'] = 1 := rfl
  have hsize : 1 < Text.byteSize (create i) := by
    have hstar : Text.byteSize ['/', '*'] = 2 := rfl
    have hcut : create i = ['/', '*'] ++ (mark ++ ':' :: Text.ofNat i ++ ['*', '/']) := by
      simp [create]
    rw [hcut, Text.byteSize_append]
    omega
  simp only [Sheet.Token.stop, hstart, htext, Text.byteSize_append, texts_append]
  omega

end Placeholder

/-! ### Templates -/

/-- The **skeleton** of a template: the characters of its literal parts, and `none` for every hole. -/
def Template.skeletonOf (qs : List Quasi) : List (Option Char) :=
  [none].intercalate (qs.map fun q => q.raw.map some)

/-- The skeleton of a template has a hole between two literal parts. -/
theorem Template.skeletonOf_cons_cons (q r : Quasi) (qs : List Quasi) :
    skeletonOf (q :: r :: qs) = q.raw.map some ++ none :: skeletonOf (r :: qs) := by
  simp [skeletonOf]

/-- The mark is in no literal part, so the skeleton of a template does not have it. -/
theorem Template.notMem_skeletonOf {qs : List Quasi} (hmark : ∀ q ∈ qs, ¬ mark <:+: q.raw) :
    ¬ mark.map some <:+: skeletonOf qs := by
  induction qs with
  | nil => exact fun h => absurd (List.infix_nil.1 h) (by decide)
  | cons q qs ih =>
      have hq := mt mark_infix_map_iff.1 (hmark q List.mem_cons_self)
      have ih := ih fun p hp => hmark p (List.mem_cons_of_mem _ hp)
      cases qs with
      | nil => simpa [skeletonOf] using hq
      | cons r qs =>
          rw [skeletonOf_cons_cons]
          intro h
          have hnone : none ∉ mark.map some := by simp
          rcases mark_infix_append (by simp) h with h | h
          · exact hq h
          · rcases List.infix_cons_iff.1 h with h | h
            · rcases List.prefix_cons_iff.1 h with h | ⟨u, hu, -⟩
              · exact absurd h (by decide)
              · exact hnone (hu ▸ List.mem_cons_self)
            · exact ih h

/-- A template is **restored** in printed pieces if they have its skeleton, with backslashes put in.
The blank line in front is left out, and blanks can be put in, in front of the blanks and semicolons
at the end. -/
def Template.Tagged.IsRestoredIn (t : Tagged) (ps : List Piece) : Prop :=
  ∃ (dropped tail doubled : Text) (body printed : List (Option Char)),
    skeletonOf t.quasis = dropped.map some ++ body ++ tail.map some ∧
    skeleton ps = printed ++ (doubled ++ tail).map some ∧ Escapes body printed ∧
    (∀ c ∈ dropped ++ doubled, Sheet.Token.isStyleBlank c = true) ∧
    ∀ c ∈ tail, Sheet.Token.isStyleBlank c = true ∨ c = ';'

/-- Where a template without the mark is restored, nothing of a placeholder is left. -/
theorem Template.Tagged.IsRestoredIn.unmarked {t : Tagged} {ps : List Piece}
    (h : t.IsRestoredIn ps) (hmark : ∀ q ∈ t.quasis, ¬ mark <:+: q.raw) : Unmarked ps := by
  obtain ⟨dropped, tail, doubled, body, printed, hskeleton, hprinted, hescapes, hblank, hstray⟩ := h
  have hplain : mark.all (fun c => Sheet.Token.isStyleBlank c = false ∧ c ≠ ';') = true := by
    decide
  have hend : ∀ c ∈ doubled ++ tail, c ∉ mark := by
    intro c hc hin
    obtain ⟨hstyle, hsemi⟩ := of_decide_eq_true (List.all_eq_true.1 hplain c hin)
    rcases List.mem_append.1 hc with hc | hc
    · simp [hblank c (List.mem_append_right _ hc)] at hstyle
    · simpa [hstyle, hsemi] using hstray c hc
  have hhead : ∀ c ∈ ((doubled ++ tail).map some).head?, c ∉ mark.map some := by
    intro c hc hin
    obtain ⟨d, hd, rfl⟩ := List.mem_map.1 (List.mem_of_mem_head? hc)
    exact hend d hd (by simpa using hin)
  refine unmarked_of_notMem_skeleton fun hmem => ?_
  rw [hprinted] at hmem
  rcases mark_infix_append hhead hmem with h | h
  · have hbody := hescapes.infix_of_infix (by decide) h
    refine notMem_skeletonOf hmark (hskeleton ▸ ?_)
    exact List.infix_append_of_infix_left (List.infix_append_of_infix_right hbody)
  · obtain ⟨c, hc⟩ : ∃ c, c ∈ mark := ⟨'S', by decide⟩
    exact hend c ((mark_infix_map_iff.1 h).subset hc) hc

namespace Extraction

variable {index : Nat} {qs : List Quasi}

/-- The atoms of a template are paired. -/
theorem paired_atoms (hraw : ∀ q ∈ qs, RawText.IsRaw q.raw)
    (hi : index + qs.length ≤ indexLimit) : Paired (atoms RawText.lineAtoms index qs) := by
  fun_induction joinFrom index qs with
  | case1 => exact .nil
  | case2 index q => exact paired_lineAtoms (hraw q List.mem_cons_self)
  | case3 index q r qs ih =>
      rw [List.length_cons] at hi
      have hrest := ih (fun p hp => hraw p (List.mem_cons_of_mem _ hp)) (by omega)
      exact (paired_lineAtoms (hraw q List.mem_cons_self)).append
        (.cons (.hole index (by omega)) hrest (by simp))

/-- The atoms of a template have its skeleton. -/
theorem skeleton_atoms {f : Text → List Piece} (hf : ∀ q ∈ qs, texts (f q.raw) = q.raw)
    (hlit : ∀ q ∈ qs, ∀ a ∈ f q.raw, a.isLiteral = true) :
    skeleton (atoms f index qs) = skeletonOf qs := by
  have hpart : ∀ q ∈ qs, skeleton (f q.raw) = q.raw.map some := fun q hq => by
    rw [skeleton_of_isLiteral (hlit q hq), hf q hq]
  clear hf hlit
  fun_induction joinFrom index qs with
  | case1 => rfl
  | case2 index q => simp [atoms, skeletonOf, hpart q List.mem_cons_self]
  | case3 index q r qs ih =>
      rw [atoms, Placeholder.skeleton_append, skeleton_hole, hpart q List.mem_cons_self,
        ih fun p hp => hpart p (List.mem_cons_of_mem _ hp), skeletonOf_cons_cons]

end Extraction

/-- A template that is laid in a source has one literal part more than holes. -/
theorem Template.Laid.length_eq {lines : LineMap} {front : Text} {qs : List Quasi} {gs : List Text}
    (h : Laid lines front qs gs) : qs.length = gs.length + 1 := by
  fun_induction Laid lines front qs gs with
  | case1 => rfl
  | case2 front q r qs g gs ih => simpa using ih h.2.2
  | case3 => exact h.elim

/-- A fragment that belongs to no node is printed as the atoms of its text. -/
theorem Sheet.Printer.flatMap_emitted_emit_root (es : List Text) (t : Text) :
    (Printer.emit .root t).flatMap (Fragment.emitted es) = RawText.atoms t := by
  rw [Printer.emit]
  split
  · next h => rw [List.isEmpty_iff.1 h, List.flatMap_nil, RawText.atoms]
  · simp [Fragment.emitted]

/-- The holes of all indices, in order, are the expressions. -/
theorem Placeholder.filterMap_range_eq_zipIdx (es : List Text) :
    ((List.range es.length).filterMap fun i => es[i]?.map (·, i)) = es.zipIdx := by
  induction es using List.reverseRecOn with
  | nil => rfl
  | append_singleton es e ih =>
      have hold : ∀ i ∈ List.range es.length,
          ((es ++ [e])[i]?.map (·, i)) = es[i]?.map (·, i) := by
        intro i hi
        rw [List.getElem?_append_left (List.mem_range.1 hi)]
      rw [List.length_append, List.length_singleton, List.range_succ, List.filterMap_append,
        List.filterMap_congr hold, ih, List.zipIdx_append]
      simp

namespace Hosting

/-- The dropped line is blank. -/
theorem isStyleBlank_of_mem_dropped {f : Text → List Piece} {source : Text} {t : Tagged} {base : Nat}
    (H : Hosting f source t (.ofText (Extraction.ofTemplate t source).text base))
    (hf : ∀ q ∈ t.quasis, texts (f q.raw) = q.raw) {c : Char} (hc : c ∈ H.dropped) :
    Sheet.Token.isStyleBlank c = true := by
  obtain ⟨d, hd, hsize, -, hblank, -⟩ :=
    Normalized.ofText_spec (Extraction.ofTemplate t source).text base
  have htext : (Extraction.ofTemplate t source).text =
      texts (Extraction.atoms f 0 t.quasis) := (Extraction.texts_atoms hf).symm
  rw [H.parts_eq, chars_append, List.append_assoc, texts_append, texts_chars] at htext
  have hsame : d = H.dropped := by
    have hcut := congrArg (Text.takeBytes (Text.byteSize d)) (hd.symm.trans htext)
    rwa [Text.takeBytes_append, hsize, ← H.byteSize_dropped, Text.takeBytes_append] at hcut
  rcases hblank c (hsame ▸ hc) with h | rfl | rfl
  · simp only [Normalized.isIndent, Bool.or_eq_true, beq_iff_eq] at h
    rcases h with rfl | rfl <;> rfl
  · rfl
  · rfl

variable {source : Text} {t : Tagged} {n : Normalized} (H : Hosting RawText.lineAtoms source t n)

/-- The atoms of a template behind its dropped line, with line feeds as atoms of their own. -/
def keptLines : List Piece :=
  chars (n.indentations.front 1) ++ indent n.indentations.front 1 H.atoms

/-- A template is its dropped line and what is kept of it. -/
theorem atoms_eq_append_keptLines :
    Extraction.atoms RawText.lineAtoms 0 t.quasis = chars H.dropped ++ H.keptLines := by
  rw [H.parts_eq, keptLines, chars_append, List.append_assoc]

/-- What is kept of a template is paired if its literal parts are raw. -/
theorem paired_keptLines (hraw : ∀ q ∈ t.quasis, RawText.IsRaw q.raw)
    (hlimit : 0 + t.quasis.length ≤ indexLimit) : Paired H.keptLines :=
  (Extraction.paired_atoms hraw hlimit).of_suffix
    (H.atoms_eq_append_keptLines ▸ List.suffix_append _ _)

/-- The skeleton of a template is that of its atoms behind the dropped line. -/
theorem skeletonOf_eq :
    skeletonOf t.quasis = H.dropped.map some ++ skeleton H.keptLines := by
  rw [← Extraction.skeleton_atoms (fun q _ => RawText.texts_lineAtoms q.raw)
      fun q _ => RawText.isLiteral_of_mem_lineAtoms,
    H.atoms_eq_append_keptLines, skeleton_append,
    skeleton_of_isLiteral fun a ha => isLiteral_of_mem_chars ha, texts_chars]

/-- What is kept of a template does not hold the word that marks placeholders if its literal parts
do not. -/
theorem notMem_skeleton_keptLines (hmark : ∀ q ∈ t.quasis, ¬ mark <:+: q.raw) :
    ¬ mark.map some <:+: skeleton H.keptLines := fun h =>
  notMem_skeletonOf hmark (H.skeletonOf_eq ▸ List.infix_append_of_infix_right h)

/-- All placeholders are behind the dropped line, in order. -/
theorem indices_keptLines : indices H.keptLines = List.range H.gaps.length := by
  have hall : indices (Extraction.atoms RawText.lineAtoms 0 t.quasis) = _ :=
    Extraction.indices_atoms fun q _ => RawText.isLiteral_of_mem_lineAtoms
  rw [H.atoms_eq_append_keptLines, indices_append,
    indices_of_isLiteral fun a ha => isLiteral_of_mem_chars ha, List.nil_append, H.laid.length_eq,
    Nat.add_sub_cancel] at hall
  rw [hall, List.range_eq_range']

/-- **Fragments that cut the atoms of a template**, and the blanks behind them, have all its holes
filled, and between these the text of the atoms with backslashes put in. -/
theorem fills_of_cuts (hraw : ∀ q ∈ t.quasis, RawText.IsRaw q.raw)
    (hlimit : 0 + t.quasis.length ≤ indexLimit) (hmark : ∀ q ∈ t.quasis, ¬ mark <:+: q.raw)
    {fs : List Fragment} {tail : Text} (blank : Text) (hfs : ∀ f ∈ fs, f.IsOfNode)
    (htail : '/' ∉ tail)
    (hcuts : Cuts ((fs ++ Printer.emit .root tail).map Fragment.text) H.keptLines) :
    let emitted := (fs ++ Printer.emit .root blank).flatMap (Fragment.emitted H.gaps)
    holesOf emitted = H.gaps.zipIdx ∧
      ∃ body printed, skeleton H.keptLines = body ++ tail.map some ∧
        skeleton emitted = printed ++ blank.map some ∧ Escapes body printed := by
  intro emitted
  have hatom := (H.paired_keptLines hraw hlimit).isAtom
  rw [List.map_append] at hcuts
  obtain ⟨u, v, huv, hu, hv⟩ := hcuts.exists_append
  have hukept : u <:+: H.keptLines := huv ▸ (List.prefix_append u v).isInfix
  have hvtext : texts v = tail := by
    rw [hv.texts_eq, ← List.flatMap_def]
    exact Fragment.texts_emit .root tail
  have hvlit : ∀ a ∈ v, a.isLiteral = true :=
    isLiteral_of_notMem (hvtext ▸ htail) fun a ha => hatom a (by simp [huv, ha])
  have hindices : indices u = List.range H.gaps.length := by
    rw [← H.indices_keptLines, huv, indices_append, indices_of_isLiteral hvlit, List.append_nil]
  have hunmarked : Unmarked H.keptLines :=
    unmarked_of_notMem_skeleton (H.notMem_skeleton_keptLines hmark)
  have hfills : Fills H.gaps u (fs.flatMap (Fragment.emitted H.gaps)) :=
    Fragment.fills_flatMap_emitted (fun a ha => hatom a (hukept.subset ha))
      (hunmarked.of_infix hukept) (fun i hi => by simpa [hindices] using hi) hu hfs
  have hemitted : emitted = fs.flatMap (Fragment.emitted H.gaps) ++ RawText.atoms blank := by
    rw [← Printer.flatMap_emitted_emit_root, ← List.flatMap_append]
  refine ⟨?_, skeleton u, _, ?_, ?_, hfills.escapes⟩
  · rw [hemitted, holesOf_append, holesOf_atoms, List.append_nil, hfills.holesOf, hindices,
      filterMap_range_eq_zipIdx]
  · rw [huv, skeleton_append, skeleton_of_isLiteral hvlit, hvtext]
  · rw [hemitted, skeleton_append, Placeholder.skeleton_atoms]

/-- **A style sheet has all its holes filled** if comments spare its placeholders, and between these
its template is restored. -/
theorem fills_fragments {r : Relocation} {g : Grammar} {root : Root} {text : Text} {base : Nat}
    (hraw : ∀ q ∈ t.quasis, RawText.IsRaw q.raw) (hlimit : 0 + t.quasis.length ≤ indexLimit)
    (hmark : ∀ q ∈ t.quasis, ¬ mark <:+: q.raw) (hspare : CommentsSpare n.text)
    (hdropped : ∀ c ∈ H.dropped, Sheet.Token.isStyleBlank c = true)
    (hnormal : n = .ofText text base) (hindent : r.config.indentations = n.indentations)
    (hlines : r.lines = LineMap.ofText n.text) (hparse : Sheet.parse g n.text = .ok root) :
    let emitted := (Printer.root { overrides := .corrected } (r.root root)).flatMap
      (Fragment.emitted H.gaps)
    holesOf emitted = H.gaps.zipIdx ∧ t.IsRestoredIn emitted := by
  have hatoms : Paired H.atoms :=
    ((H.paired_keptLines hraw hlimit).of_suffix (List.suffix_append _ _)).of_indent H.isAtom
  have htrail := Normalized.trailing_eq_front text base
  rw [← hnormal, ← hindent] at htrail
  obtain ⟨done, pend, htokens, hstray, hroot, ⟨gs, hgs, hspell, hlead⟩, -⟩ :=
    Relocation.spells_root hlines htrail hparse
  have hcuts : Cuts ((done ++ pend).map Sheet.Token.text) H.atoms := by
    rw [← H.texts_atoms] at htokens hspare
    exact cuts_of_tokenize_of_not_breaks hatoms htokens
      (not_breaks_of_commentsSpare H.isAtom H.unmarked htokens hspare)
  have htail : ∀ {c : Char}, Sheet.Token.isStyleBlank c = false → c ≠ ';' → c ∉ r.tail done pend :=
    Relocation.notMem_tail (hnormal ▸ hindent) htokens hstray
  have hdoubled : ∀ c ∈ r.doubledFront root, Sheet.Token.isStyleBlank c = true := fun c hc => by
    by_contra hblank
    exact Relocation.notMem_doubledFront (hnormal ▸ hindent) (by simpa using hblank) root hc
  rw [hroot]
  have hkept : Cuts ((Printer.nodes { overrides := .corrected } 0 true root.semicolon
      (root.nodes.map r.node) ++ Printer.emit .root (r.tail done pend)).map Fragment.text)
      H.keptLines := by
    rw [hspell, hindent]
    exact Cuts.spell (hgs ▸ hcuts) hatoms.isAtom (hindent ▸ hlead)
  obtain ⟨hholes, body, printed, hbody, hprinted, hescapes⟩ :=
    H.fills_of_cuts hraw hlimit hmark (r.doubledFront root ++ r.tail done pend)
      (Printer.isOfNode_of_mem_nodes _ _ _ _ _) (htail rfl (by decide)) hkept
  refine ⟨hholes, H.dropped, r.tail done pend, r.doubledFront root, body, printed, ?_, hprinted,
    hescapes, List.forall_mem_append.2 ⟨hdropped, hdoubled⟩, fun c hc => ?_⟩
  · rw [H.skeletonOf_eq, hbody, List.append_assoc]
  · by_contra h
    rw [not_or] at h
    exact htail (by simpa using h.1) h.2 hc

end Hosting

/-! ### Documents -/

namespace Assembly

variable {a : Assembly} {origin : Option Text} {source : Text} {t : Tagged}

/-- Every expression of a block is printed once, in order, and its template is restored between them,
if comments spare its placeholders. -/
theorem expressions_of_readBlock {b : StyleBlock} {config : BlockConfig}
    (hsize : Text.byteSize source < Word.signedLimit) (hin : t.IsIn source)
    (hmark : ∀ q ∈ t.quasis, ¬ mark <:+: q.raw) (hspare : CommentsSpare (styleText source t))
    (hconfig : b.config = some config) (h : a.readBlock origin source t = .ok (b.root, config)) :
    holesOf b.emitted = b.expressions.zipIdx ∧ t.IsRestoredIn b.emitted := by
  obtain ⟨front, gaps, back, hlaid, hsource⟩ := id hin
  obtain ⟨H⟩ := nonempty_hosting (f := RawText.lineAtoms) hin hsize
    (fun q _ => RawText.texts_lineAtoms q.raw) (fun q _ => RawText.isAtom_of_mem_lineAtoms)
    (fun q _ => RawText.isLiteral_of_mem_lineAtoms) hmark t.base
  obtain ⟨first, hfirst, -⟩ := H.laid.exists_head
  obtain ⟨r, sheet, hsheet, hroot, rfl, hlines, hindent, -, hes⟩ := readBlock_eq_ok rfl hfirst h
  have hdropped : ∀ c ∈ H.dropped, Sheet.Token.isStyleBlank c = true := fun c =>
    H.isStyleBlank_of_mem_dropped fun q _ => RawText.texts_lineAtoms q.raw
  have hfills := H.fills_fragments hlaid.isRaw (length_le_indexLimit hlaid hsource hsize) hmark
    hspare hdropped rfl hindent hlines hsheet
  have hexpressions : b.expressions = H.gaps := by
    rw [StyleBlock.expressions, hconfig]
    exact hes.trans H.expressions_eq
  rw [StyleBlock.emitted, hexpressions, hroot]
  exact hfills

/-- **Every expression is printed once.** Whatever the dialect, the matcher and the directive: of
every block that a source is read as, the expressions are printed as holes, each of them once and in
order, if no comment of its style text ends within a placeholder. Between them stand the literal parts
of the template with backslashes put in, and no part of a placeholder. The bound is the size of the
texts that fit into memory. -/
theorem expressions_emitted {dialect : Dialect} {matcher : Matcher} {directive : Text}
    {ts : List Tagged} (hsize : Text.byteSize source < Word.signedLimit)
    (hts : findTemplates source = .ok ts)
    (hmark : ∀ t ∈ ts,
      selects { dialect := dialect, matcher := matcher, directive := directive } t = true →
        ∀ q ∈ t.quasis, ¬ mark <:+: q.raw) :
    ∃ doc, parse { dialect := dialect, matcher := matcher, directive := directive } origin
        source = .ok doc ∧
      ∀ b ∈ doc.blocks, ∃ t ∈ ts, ∃ config, b.config = some config ∧
        readBlock { dialect := dialect, matcher := matcher, directive := directive } origin source
          t = .ok (b.root, config) ∧
        texts b.emitted = Fragment.texts b.rootFragments ∧
        (CommentsSpare (styleText source t) →
          holesOf b.emitted = b.expressions.zipIdx ∧ t.IsRestoredIn b.emitted ∧
            Unmarked b.emitted) := by
  refine ⟨_, congrArg (Except.map _) hts, fun b hb => ?_⟩
  obtain ⟨t, ht, hsel, config, hconfig, hread⟩ := exists_readBlock_of_mem hb
  refine ⟨t, ht, config, hconfig, hread, b.texts_emitted, fun hspare => ?_⟩
  obtain ⟨hholes, hrestored⟩ := expressions_of_readBlock hsize (isIn_of_mem_findTemplates hts ht)
    (hmark t ht hsel) hspare hconfig hread
  exact ⟨hholes, hrestored, hrestored.unmarked (hmark t ht hsel)⟩

/-- A hole with a star in front of it is printed, where the star is not in a comment. -/
theorem expressions_emitted_starredValue :
    let source : Text := "css`a: b *$\x7bx\x7d;`".toList
    ∃ doc, parse { dialect := .css, matcher := {}, directive := [] } none source = .ok doc ∧
      ∃ b ∈ doc.blocks, holesOf b.emitted = [("$\x7bx\x7d".toList, 0)] ∧ Unmarked b.emitted := by
  intro source
  let t : Tagged :=
    { tag := .identifier "css".toList, span := ⟨0, 16⟩
      quasis := [⟨⟨4, 10⟩, ⟨1, 5⟩, ⟨1, 11⟩, "a: b *".toList⟩, ⟨⟨14, 15⟩, ⟨1, 15⟩, ⟨1, 16⟩, [';']⟩]
      holes := [⟨⟨12, 13⟩, ⟨1, 13⟩⟩], leadingComments := [] }
  have hts : findTemplates source = .ok [t] := by decide +kernel
  have hmark : ∀ q ∈ t.quasis, ¬ mark <:+: q.raw := by decide +kernel
  obtain ⟨doc, hdoc, hall⟩ := @expressions_emitted none source .css {} [] [t]
    (by decide +kernel) hts fun u hu _ => List.mem_singleton.1 hu ▸ hmark
  have hrun : (parse { dialect := .css, matcher := {}, directive := [] } none source).toOption.map
      (fun d => d.blocks.map StyleBlock.expressions) = some [["$\x7bx\x7d".toList]] := by
    decide +kernel
  rw [hdoc, Except.toOption, Option.map_some, Option.some.injEq, List.map_eq_singleton_iff] at hrun
  obtain ⟨b, hb, hes⟩ := hrun
  have hmem : b ∈ doc.blocks := hb ▸ List.mem_singleton_self b
  obtain ⟨u, hu, -, -, -, -, hprinted⟩ := hall b hmem
  obtain rfl := List.mem_singleton.1 hu
  obtain ⟨hholes, -, hunmarked⟩ := hprinted (by decide +kernel)
  exact ⟨doc, hdoc, b, hmem, by rw [hholes, hes]; rfl, hunmarked⟩

/-- In a comment, the hole is lost: the comment ends with the slash of its placeholder. -/
example :
    (parse { dialect := .css, matcher := {}, directive := [] } none
        "css`/***$\x7bx\x7d;`".toList).toOption.map
      (fun d => d.blocks.map fun b => (holesOf b.emitted, b.expressions)) =
      some [([], ["$\x7bx\x7d".toList])] := by
  decide +kernel

end Assembly

end StyleBlocks
