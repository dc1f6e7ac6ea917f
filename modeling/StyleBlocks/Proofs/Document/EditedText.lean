import StyleBlocks.Proofs.Document.Emission
import StyleBlocks.Proofs.Document.RoundTrip

/-!
# Edited style sheets in their template

Whatever the nodes of a block are changed to, every fragment of them is escaped by itself. What is
printed is therefore a list of printable atoms: no backtick and no backslash is bare, and within one
fragment no bare dollar sign stands in front of a brace. Fragments are not escaped together, though.
A fragment that ends in a bare dollar sign, printed in front of one that starts with a brace, opens
a hole.

## Main results

* `Placeholder.readsFrom_iff`: printable atoms are read as they were printed if and only if no dollar
  sign stands in front of a brace among them.
* `Sheet.Fragment.isSafe_emitted`: within one fragment none does.
* `Assembly.readsAs_edited_iff`: an edited block is read as it was printed if and only if no fragment
  that ends in a dollar sign stands in front of one that starts with a brace.
-/

namespace StyleBlocks

open Placeholder Sheet Template

namespace Placeholder

/-- How the loop over literal parts **reads** the text of pieces with a backtick behind it, if it has
read `lit` since the last hole: text is literal, a hole opens where a piece is one, and behind the
hole the loop goes on; the first backtick that closes is the one behind the pieces. -/
def ReadsFrom (lit : Text) : List Piece → Prop
  | [] => RawText.readSegment (lit ++ ['\x60']) = some ⟨lit, .backtick, []⟩
  | .literal t :: ps => ReadsFrom (lit ++ t) ps
  | .hole _ e :: ps =>
    (∃ rest, RawText.readSegment (lit ++ (e ++ (texts ps ++ ['\x60']))) = some ⟨lit, .hole, rest⟩) ∧
      ReadsFrom [] ps

/-- Pieces are **read as** they were printed. -/
def ReadsAs (ps : List Piece) : Prop :=
  ReadsFrom [] ps

/-- A **printable** atom: a character other than a backslash and a backtick, an escape pair, or a
hole. -/
inductive IsPrintable : Piece → Prop
  | char {c : Char} (hb : c ≠ '\\') (hq : c ≠ '\x60') : IsPrintable (.literal [c])
  | pair (c : Char) : IsPrintable (.literal ['\\', c])
  | hole (i : Nat) (e : Text) : IsPrintable (.hole i ('$' :: '{' :: e))

/-- A printable atom is not empty. -/
theorem IsPrintable.text_ne_nil {a : Piece} (h : IsPrintable a) : a.text ≠ [] := by
  cases h <;> exact List.cons_ne_nil _ _

/-- Two atoms **keep apart** if they do not open a hole together. -/
def KeepApart (a b : Piece) : Prop :=
  a = .literal ['$'] → b ≠ .literal ['{']

/-- Atoms are **safe** in a template: they are printable, and neighbours keep apart. -/
structure IsSafe (m : List Piece) : Prop where
  isPrintable : ∀ a ∈ m, IsPrintable a
  chain : m.IsChain KeepApart

section

variable {a b : Piece} {m u v : List Piece} {t w lit : Text}

/-! ### Reading printable atoms -/

/-- Only one printable atom starts with a brace. -/
theorem IsPrintable.eq_brace (ha : IsPrintable a) (h : a.text.head? = some '{') :
    a = .literal ['{'] := by
  cases ha with
  | char hb hq => simpa using h
  | pair c => simp at h
  | hole i e => simp at h

/-- A text atom is read as literal text, unless it opens a hole together with what follows it. -/
theorem IsPrintable.readSegment_append (ha : IsPrintable a) (hl : a.isLiteral = true)
    (h : a = .literal ['$'] → t.head? ≠ some '{') :
    RawText.readSegment (a.text ++ t) =
      (RawText.readSegment t).map (RawText.Segment.cons a.text) := by
  cases ha with
  | hole i e => simp [Piece.isLiteral] at hl
  | pair c => simp [RawText.readSegment]
  | char hb hq => exact RawText.readSegment_cons hb hq fun hc => h (by rw [hc])

/-- **Text atoms that keep apart** are read as literal text, also from the text in front of them
on. -/
theorem readSegment_texts_append (hm : ∀ a ∈ m, IsPrintable a) (hl : ∀ a ∈ m, a.isLiteral = true)
    (h : m.IsChain KeepApart) (hw : m.getLast? = some (.literal ['$']) → w.head? ≠ some '{') :
    RawText.readSegment (texts m ++ w) =
      (RawText.readSegment w).map (RawText.Segment.cons (texts m)) := by
  induction m with
  | nil => cases hr : RawText.readSegment w <;> simp [hr, RawText.Segment.cons]
  | cons a m ih =>
      obtain ⟨hapart, hchain⟩ := List.isChain_cons.1 h
      have hnext : a = .literal ['$'] → (texts m ++ w).head? ≠ some '{' := by
        rintro rfl hhead
        cases m with
        | nil => exact hw rfl hhead
        | cons b m =>
            have hb := hm b (by simp)
            rw [texts_cons, List.append_assoc, List.head?_append_of_ne_nil _ hb.text_ne_nil] at hhead
            exact hapart b rfl rfl (hb.eq_brace hhead)
      have ih := ih (fun b hb => hm b (List.mem_cons_of_mem _ hb))
        (fun b hb => hl b (List.mem_cons_of_mem _ hb)) hchain fun hlast => hw (by
          rw [List.getLast?_cons, hlast, Option.getD_some])
      rw [texts_cons, List.append_assoc,
        (hm a List.mem_cons_self).readSegment_append (hl a List.mem_cons_self) hnext, ih,
        Option.map_map]
      refine congrArg (Option.map · _) (funext fun s => ?_)
      simp [RawText.Segment.cons]

/-- **Text atoms of which two open a hole** together are not read to their end. -/
theorem length_raw_lt_of_not_isChain (hm : ∀ a ∈ m, IsPrintable a)
    (hl : ∀ a ∈ m, a.isLiteral = true) (h : ¬ m.IsChain KeepApart) {s : RawText.Segment}
    (hs : RawText.readSegment (texts m ++ w) = some s) : s.raw.length < (texts m).length := by
  induction m generalizing s with
  | nil => exact absurd List.isChain_nil h
  | cons a m ih =>
      by_cases hopen : a = .literal ['$'] ∧ m.head? = some (.literal ['{'])
      · obtain ⟨rfl, hhead⟩ := hopen
        obtain ⟨m, rfl⟩ := List.head?_eq_some_iff.1 hhead
        obtain rfl : (⟨[], .hole, texts m ++ w⟩ : RawText.Segment) = s := by
          simpa [RawText.readSegment] using hs
        simp
      · -- the first atom is read, and the hole opens behind it
        have hrest : ¬ m.IsChain KeepApart := fun hm => h <| List.isChain_cons.2
          ⟨fun b hb ha hbrace => hopen ⟨ha, hbrace ▸ hb⟩, hm⟩
        have hnext : a = .literal ['$'] → (texts m ++ w).head? ≠ some '{' := by
          intro ha hhead
          cases m with
          | nil => exact hrest List.isChain_nil
          | cons b m =>
              have hb := hm b (by simp)
              rw [texts_cons, List.append_assoc,
                List.head?_append_of_ne_nil _ hb.text_ne_nil] at hhead
              exact hopen ⟨ha, congrArg some (hb.eq_brace hhead)⟩
        rw [texts_cons, List.append_assoc,
          (hm a List.mem_cons_self).readSegment_append (hl a List.mem_cons_self) hnext] at hs
        obtain ⟨u, hu, rfl⟩ := Option.map_eq_some_iff.1 hs
        have hlt := ih (fun b hb => hm b (List.mem_cons_of_mem _ hb))
          (fun b hb => hl b (List.mem_cons_of_mem _ hb)) hrest hu
        simpa [RawText.Segment.cons] using hlt

/-- Text atoms that are read to their end keep apart. -/
theorem isChain_of_readSegment (hm : ∀ a ∈ m, IsPrintable a) (hl : ∀ a ∈ m, a.isLiteral = true)
    {d : RawText.Delimiter} {rest : Text}
    (h : RawText.readSegment (texts m ++ w) = some ⟨texts m, d, rest⟩) :
    m.IsChain KeepApart := by
  by_contra hnot
  exact absurd (length_raw_lt_of_not_isChain hm hl hnot h) (Nat.lt_irrefl _)

/-- **Printable atoms are read as they were printed** if and only if they keep apart. -/
theorem readsFrom_iff (hm : ∀ a ∈ u ++ m, IsPrintable a) (hl : ∀ a ∈ u, a.isLiteral = true) :
    ReadsFrom (texts u) m ↔ (u ++ m).IsChain KeepApart := by
  have hu : ∀ a ∈ u, IsPrintable a := fun a ha => hm a (List.mem_append_left _ ha)
  induction m generalizing u with
  | nil =>
      rw [List.append_nil]
      refine ⟨isChain_of_readSegment hu hl, fun h => ?_⟩
      rw [ReadsFrom, readSegment_texts_append hu hl h (by simp)]
      simp [RawText.readSegment, RawText.Segment.cons]
  | cons a m ih =>
      have ha : IsPrintable a := hm a (by simp)
      cases hlit : a.isLiteral with
      | true =>
          obtain ⟨t, rfl⟩ : ∃ t, a = .literal t := by
            cases a with
            | literal t => exact ⟨t, rfl⟩
            | hole i e => simp [Piece.isLiteral] at hlit
          have ih := ih (u := u ++ [.literal t]) (by simpa using hm)
            (by simpa [Piece.isLiteral, or_imp, forall_and] using hl)
            (by simpa [or_imp, forall_and, ha] using hu)
          simpa [ReadsFrom] using ih
      | false =>
          obtain ⟨i, e, rfl⟩ : ∃ i e, a = .hole i ('$' :: '{' :: e) := by
            cases ha with
            | hole i e => exact ⟨i, e, rfl⟩
            | char hb hq => simp [Piece.isLiteral] at hlit
            | pair c => simp [Piece.isLiteral] at hlit
          have ih : ReadsFrom [] m ↔ m.IsChain KeepApart :=
            ih (u := []) (fun b hb => hm b (by simp_all)) (by simp) (by simp)
          have hsplit : (u ++ .hole i ('$' :: '{' :: e) :: m).IsChain KeepApart ↔
              u.IsChain KeepApart ∧ m.IsChain KeepApart := by
            rw [List.isChain_append, List.isChain_cons]
            simp [KeepApart]
          rw [ReadsFrom, hsplit, ih]
          refine and_congr_left fun _ => ⟨?_, fun h => ?_⟩
          · rintro ⟨rest, h⟩
            exact isChain_of_readSegment hu hl h
          · rw [readSegment_texts_append hu hl h (by simp)]
            simp [RawText.readSegment, RawText.Segment.cons]

/-! ### Safe atoms -/

/-- No atoms are safe. -/
theorem IsSafe.nil : IsSafe [] :=
  ⟨by simp, List.isChain_nil⟩

/-- Safe atoms whose neighbours keep apart are safe together. -/
theorem IsSafe.append (hu : IsSafe u) (hv : IsSafe v)
    (h : ∀ a ∈ u.getLast?, ∀ b ∈ v.head?, KeepApart a b) : IsSafe (u ++ v) where
  isPrintable a ha := (List.mem_append.1 ha).elim (hu.isPrintable a) (hv.isPrintable a)
  chain := List.isChain_append.2 ⟨hu.chain, hv.chain, h⟩

/-- An atom in front of safe ones is safe with them if it keeps apart from the first one. -/
theorem IsSafe.cons (ha : IsPrintable a) (hm : IsSafe m) (h : ∀ b ∈ m.head?, KeepApart a b) :
    IsSafe (a :: m) :=
  ⟨List.forall_mem_cons.2 ⟨ha, hm.isPrintable⟩, hm.chain.cons h⟩

/-- An atom of a text that is a character is one of its characters. -/
theorem mem_of_mem_atoms {c : Char} (h : .literal [c] ∈ RawText.atoms t) : c ∈ t := by
  rw [← RawText.texts_atoms t]
  exact List.mem_flatMap.2 ⟨_, h, List.mem_singleton_self c⟩

/-- Escaping puts no brace in front. -/
theorem head?_of_head?_escape (h : (RawText.escape t).head? = some '{') : t.head? = some '{' := by
  fun_cases RawText.escape t <;> simp_all [RawText.escape]

/-- **Escaped text is safe.** -/
theorem isSafe_atoms_escape (t : Text) : IsSafe (RawText.atoms (RawText.escape t)) := by
  have hpair : ∀ {c : Char} {m : List Piece}, IsSafe m → IsSafe (.literal ['\\', c] :: m) :=
    fun hm => .cons (.pair _) hm fun b _ h => by simp at h
  fun_induction RawText.escape t with
  | case1 => exact .nil
  | case2 => exact hpair .nil
  | case3 c t ih => exact hpair ih
  | case4 t ih => exact hpair ih
  | case5 t ih =>
      rw [RawText.atoms, RawText.atoms_cons (by decide)]
      exact hpair (.cons (.char (by decide) (by decide)) ih fun b _ h => by simp at h)
  | case6 c t hend hescape hq hopen ih =>
      have hslash := RawText.ne_backslash hend hescape
      rw [RawText.atoms_cons hslash]
      refine .cons (.char hslash hq) ih fun b hb hc hbrace => ?_
      obtain rfl : c = '$' := by simpa using hc
      obtain ⟨u, hu⟩ := RawText.eq_cons_of_head?_atoms (hbrace ▸ hb)
      obtain ⟨v, rfl⟩ := List.head?_eq_some_iff.1 (head?_of_head?_escape (t := t) (by rw [hu]; rfl))
      exact hopen v rfl rfl

/-- Text without backslashes, backticks and dollar signs is safe as it is. -/
theorem isSafe_atoms (h : ∀ c ∈ t, c ≠ '\\' ∧ c ≠ '\x60' ∧ c ≠ '$') : IsSafe (RawText.atoms t) := by
  rw [← RawText.escape_eq_self h]
  exact isSafe_atoms_escape t

/-! ### The pieces of a text -/

/-- The text of a placeholder, whatever its numeral. -/
def IsTokenText (u : Text) : Prop :=
  ∃ digits, (∀ c ∈ digits, c.isDigit = true) ∧
    u = '/' :: '*' :: mark ++ ':' :: digits ++ ['*', '/']

/-- A placeholder has no other characters than its marks and digits. -/
theorem IsTokenText.notMem (h : IsTokenText t) {c : Char} (hdigit : c.isDigit = false)
    (hc : c ∉ '/' :: '*' :: ':' :: mark) : c ∉ t := by
  obtain ⟨digits, hdigits, rfl⟩ := h
  have hnum : c ∉ digits := fun hm => by simp [hdigits c hm] at hdigit
  simp only [List.mem_cons, not_or] at hc
  simp [hc, hnum]

/-- A placeholder that is read has the text of one. -/
theorem isTokenText_of_readToken? {k : Placeholder.Token} (h : readToken? t = some k) :
    IsTokenText k.text := by
  simp only [readToken?, Option.bind_eq_bind, Option.bind_eq_some_iff] at h
  obtain ⟨v, -, rest, -, h⟩ := h
  split at h
  · contradiction
  · cases h
    exact ⟨v.takeWhile Char.isDigit, fun c hc => List.mem_takeWhile_imp hc, by simp⟩

/-- What pieces of a text are like: texts have grown together, and holes are placeholders. -/
structure IsSplit (ps : List Piece) : Prop where
  chain : ps.IsChain fun a b => a.isLiteral = true → b.isLiteral = false
  isTokenText : ∀ i u, .hole i u ∈ ps → IsTokenText u

/-- Text in front of split pieces leaves them split. -/
theorem IsSplit.consLiteral {ps : List Piece} (h : IsSplit ps) (t : Text) :
    IsSplit (consLiteral t ps) := by
  unfold Placeholder.consLiteral
  split
  · next u ps =>
      obtain ⟨hhead, hchain⟩ := List.isChain_cons.1 h.chain
      exact ⟨hchain.cons hhead, fun i u hu => h.isTokenText i u (by simpa using hu)⟩
  · next hne =>
      refine ⟨h.chain.cons fun b hb _ => ?_, fun i u hu => h.isTokenText i u (by simpa using hu)⟩
      cases b with
      | hole i u => rfl
      | literal u =>
          obtain ⟨qs, rfl⟩ := List.head?_eq_some_iff.1 hb
          exact absurd rfl (hne u qs)

/-- The pieces of a text are split. -/
theorem isSplit_pieces (t : Text) : IsSplit (pieces t) := by
  fun_induction pieces t with
  | case1 => exact ⟨List.isChain_nil, by simp⟩
  | case2 c t k hk _ _ ih =>
      refine ⟨ih.chain.cons fun b _ h => by simp [Piece.isLiteral] at h, fun i u hu => ?_⟩
      rcases List.mem_cons.1 hu with hu | hu
      · cases hu
        exact isTokenText_of_readToken? hk
      · exact ih.isTokenText i u hu
  | case3 c t k hk _ _ ih => exact ih.consLiteral _
  | case4 c t _ ih => exact ih.consLiteral _

/-- What a placeholder is printed as neither starts with a brace nor ends in a dollar sign. -/
theorem IsTokenText.isSafe_emitted {es : List Text} {i : Nat} (hes : ∀ e ∈ es, IsHole e)
    (hu : IsTokenText t) :
    IsSafe ((Piece.hole i t).emitted es) ∧ (Piece.hole i t).emitted es ≠ [] ∧
      .literal ['$'] ∉ (Piece.hole i t).emitted es ∧
      .literal ['{'] ∉ (Piece.hole i t).emitted es := by
  have hplain : ∀ c ∈ t, c ≠ '\\' ∧ c ≠ '\x60' ∧ c ≠ '$' := by
    refine fun c hc => ⟨?_, ?_, ?_⟩ <;>
    · rintro rfl
      exact hu.notMem rfl (by decide) hc
  rw [Piece.emitted]
  cases he : es[i]? with
  | some e =>
      obtain ⟨x, rfl⟩ := hes e (List.mem_of_getElem? he)
      exact ⟨.cons (.hole i _) .nil (by simp), by simp, by simp, by simp⟩
  | none =>
      simp only [RawText.escape_eq_self hplain]
      refine ⟨isSafe_atoms hplain, ?_, fun h => (hplain _ (mem_of_mem_atoms h)).2.2 rfl, fun h => ?_⟩
      · obtain ⟨digits, -, rfl⟩ := hu
        simp [RawText.atoms_cons]
      · exact hu.notMem rfl (by decide) (mem_of_mem_atoms h)

/-- What split pieces are printed as is safe. -/
theorem IsSplit.isSafe_flatMap_emitted {es : List Text} {ps : List Piece}
    (hes : ∀ e ∈ es, IsHole e) (h : IsSplit ps) : IsSafe (ps.flatMap (Piece.emitted es)) := by
  induction ps with
  | nil => exact .nil
  | cons a ps ih =>
      obtain ⟨hhead, hchain⟩ := List.isChain_cons.1 h.chain
      have ih := ih ⟨hchain, fun i u hu => h.isTokenText i u (List.mem_cons_of_mem _ hu)⟩
      rw [List.flatMap_cons]
      cases a with
      | hole i u =>
          obtain ⟨hsafe, -, hdollar, -⟩ :=
            (h.isTokenText i u List.mem_cons_self).isSafe_emitted (i := i) hes
          exact hsafe.append ih fun a ha b _ h => absurd (h ▸ List.mem_of_getLast? ha) hdollar
      | literal u =>
          refine (isSafe_atoms_escape u).append ih fun a _ b hb _ hbrace => ?_
          -- text is followed by a placeholder
          cases ps with
          | nil => simp at hb
          | cons p ps =>
              obtain ⟨i, v, rfl⟩ : ∃ i v, p = .hole i v := by
                cases p with
                | hole i v => exact ⟨i, v, rfl⟩
                | literal v => simpa [Piece.isLiteral] using hhead (.literal v) rfl
              obtain ⟨-, hne, -, hnot⟩ :=
                (h.isTokenText i v (by simp)).isSafe_emitted (i := i) hes
              rw [List.flatMap_cons, List.head?_append_of_ne_nil _ hne] at hb
              exact hnot (hbrace ▸ List.mem_of_mem_head? hb)

/-- **What a text is printed as is safe**, whatever the text. -/
theorem isSafe_emitted {es : List Text} (hes : ∀ e ∈ es, IsHole e) (t : Text) :
    IsSafe (emitted es t) :=
  (isSplit_pieces t).isSafe_flatMap_emitted hes

/-- Lists that keep apart within themselves keep apart together unless two of them, with empty ones
between them, do not. -/
theorem isChain_flatMap_iff {α : Type} {f : α → List Piece} {l : List α}
    (hl : ∀ x ∈ l, (f x).IsChain KeepApart) :
    (l.flatMap f).IsChain KeepApart ↔ ∀ l₁ l₂, l = l₁ ++ l₂ →
      ∀ a ∈ (l₁.flatMap f).getLast?, ∀ b ∈ (l₂.flatMap f).head?, KeepApart a b := by
  constructor
  · rintro h l₁ l₂ rfl
    rw [List.flatMap_append, List.isChain_append] at h
    exact h.2.2
  · intro h
    induction l with
    | nil => exact List.isChain_nil
    | cons x l ih =>
        have hrest : (l.flatMap f).IsChain KeepApart := by
          refine ih (fun y hy => hl y (List.mem_cons_of_mem _ hy)) fun l₁ l₂ hcut a ha => ?_
          refine h (x :: l₁) l₂ (by rw [hcut, List.cons_append]) a ?_
          rw [List.flatMap_cons, List.getLast?_append, Option.mem_def.1 ha]
          rfl
        refine List.isChain_append.2 ⟨hl x List.mem_cons_self, hrest, ?_⟩
        have hborder := h [x] l rfl
        rwa [List.flatMap_singleton] at hborder

end

end Placeholder

/-! ### Fragments -/

namespace Sheet

/-- **What a fragment of a node is printed as is safe**, whatever its text. -/
theorem Fragment.isSafe_emitted {es : List Text} (hes : ∀ e ∈ es, IsHole e) {f : Fragment}
    (hf : f.IsOfNode) : IsSafe (f.emitted es) := by
  obtain ⟨t, owner, boundary⟩ := f
  obtain ⟨o, ho, rfl⟩ : ∃ o ≠ Owner.root, owner = some o := hf
  have htext := Placeholder.isSafe_emitted hes t
  match o with
  | .root => contradiction
  | .rule | .atRule | .declaration => exact htext
  | .comment =>
      simp only [emitted]
      split
      · next hole hhole =>
          obtain ⟨i, -, hi⟩ := Option.bind_eq_some_iff.1 hhole
          obtain ⟨e, he, rfl⟩ := Option.map_eq_some_iff.1 hi
          obtain ⟨x, rfl⟩ := hes e (List.mem_of_getElem? he)
          exact .cons (.hole i _) .nil (by simp)
      · exact htext

end Sheet

/-- A fragment that ends in a bare dollar sign **meets a brace** that another one starts with, with
nothing printed between them. -/
def MeetsBrace (es : List Text) (fs : List Fragment) : Prop :=
  ∃ fs₁ fs₂, fs = fs₁ ++ fs₂ ∧
    (fs₁.flatMap (Fragment.emitted es)).getLast? = some (.literal ['$']) ∧
    (fs₂.flatMap (Fragment.emitted es)).head? = some (.literal ['{'])

/-- **Safe fragments are read as they were printed** unless a dollar sign meets a brace. -/
theorem readsAs_iff_not_meetsBrace {es : List Text} {fs : List Fragment}
    (h : ∀ f ∈ fs, IsSafe (f.emitted es)) :
    ReadsAs (fs.flatMap (Fragment.emitted es)) ↔ ¬ MeetsBrace es fs := by
  have hprint : ∀ a ∈ fs.flatMap (Fragment.emitted es), IsPrintable a := by
    intro a ha
    obtain ⟨f, hf, ha⟩ := List.mem_flatMap.1 ha
    exact (h f hf).isPrintable a ha
  have hread := readsFrom_iff (u := []) (m := fs.flatMap (Fragment.emitted es)) hprint (by simp)
  rw [ReadsAs, ← texts_nil, hread, List.nil_append, isChain_flatMap_iff fun f hf => (h f hf).chain]
  constructor
  · rintro hapart ⟨fs₁, fs₂, rfl, hlast, hhead⟩
    exact hapart fs₁ fs₂ rfl _ hlast _ hhead rfl rfl
  · rintro hmeets fs₁ fs₂ hcut a ha b hb rfl rfl
    exact hmeets ⟨fs₁, fs₂, hcut, ha, hb⟩

/-! ### Blocks -/

namespace Relocation

/-- The fragments of a relocated style sheet whose nodes have been replaced. -/
theorem root_replaced {r : Relocation} {g : Grammar} {t : Text} {root : Root}
    (hlines : r.lines = LineMap.ofText t)
    (htrail : r.config.indentations.trailing.getD [] = r.config.indentations.front (t.breaks + 1))
    (h : Sheet.parse g t = .ok root) :
    ∃ done pend, Token.tokenize t = .ok (done ++ pend) ∧
      (∀ k ∈ pend, k.kind = .space ∨ k.kind = .semicolon) ∧
      ∀ origin ns, Printer.root { overrides := .corrected }
          { r.root root with origin := origin, nodes := ns } =
        Printer.nodes { overrides := .corrected } 0 true root.semicolon ns ++
          Printer.emit .root (r.doubledFront root ++ r.tail done pend) := by
  obtain ⟨done, pend, htokens, hstray, hroot, -, -⟩ := spells_root hlines htrail h
  refine ⟨done, pend, htokens, hstray, fun origin ns => ?_⟩
  rw [← nodes_eq_map] at hroot
  have hemit := List.append_cancel_left hroot
  rw [← hemit]
  rfl

end Relocation

namespace Assembly

variable {a : Assembly} {origin : Option Text} {source : Text} {t : Tagged}

/-- Every fragment of a block is safe, whatever its nodes have been replaced with. -/
theorem isSafe_of_readBlock {root : Root} {config : BlockConfig} (hin : t.IsIn source)
    (h : a.readBlock origin source t = .ok (root, config)) (ns : List Node) :
    (∀ e ∈ config.expressions, IsHole e) ∧
      ∀ f ∈ Printer.root { overrides := .corrected } { root with nodes := ns },
        IsSafe (f.emitted config.expressions) := by
  obtain ⟨front, gaps, back, hlaid, hsource⟩ := hin
  obtain ⟨first, hfirst, -⟩ := hlaid.exists_head
  obtain ⟨r, sheet, hsheet, rfl, rfl, hlines, hindent, -, hes⟩ := readBlock_eq_ok rfl hfirst h
  have hholes : ∀ e ∈ r.config.expressions, IsHole e := by
    rw [hes, Extraction.ofTemplate, Extraction.gaps_of_laid hlaid hsource]
    exact hlaid.isHole
  have htrail := Normalized.trailing_eq_front (Extraction.ofTemplate t source).text t.base
  rw [← hindent] at htrail
  obtain ⟨done, pend, htokens, hstray, hroot⟩ := Relocation.root_replaced hlines htrail hsheet
  refine ⟨hholes, fun f hf => ?_⟩
  rw [hroot origin ns] at hf
  rcases List.mem_append.1 hf with hf | hf
  · exact Fragment.isSafe_emitted hholes (Printer.isOfNode_of_mem_nodes _ _ _ _ _ f hf)
  · -- what stands at the end of the style sheet is not escaped, but it is blank
    have hplain : ∀ c, Sheet.Token.isStyleBlank c = false → c ≠ ';' →
        c ∉ r.doubledFront sheet ++ r.tail done pend := by
      intro c hblank hsemi
      rw [List.mem_append, not_or]
      exact ⟨Relocation.notMem_doubledFront hindent hblank sheet,
        Relocation.notMem_tail hindent htokens hstray hblank hsemi⟩
    rw [Printer.emit] at hf
    split at hf
    · contradiction
    · rw [List.mem_singleton.1 hf]
      refine isSafe_atoms fun c hc => ⟨?_, ?_, ?_⟩ <;>
      · rintro rfl
        exact hplain _ rfl (by decide) hc

/-- **Edited blocks in their template.** Whatever the nodes of a block are replaced with: what is
printed of it, with a backtick behind it, is read as it was printed, its holes as holes and
everything else as literal text up to that backtick, if and only if no fragment that ends in a bare
dollar sign meets a brace that the next one starts with. -/
theorem readsAs_edited_iff {dialect : Dialect} {matcher : Matcher} {directive : Text}
    {ts : List Tagged} (hts : findTemplates source = .ok ts) :
    ∃ doc, parse { dialect := dialect, matcher := matcher, directive := directive } origin
        source = .ok doc ∧
      ∀ b ∈ doc.blocks, ∀ ns : List Node,
        let edited : StyleBlock := { b with root := { b.root with nodes := ns } }
        (∀ e ∈ edited.expressions, IsHole e) ∧
          texts edited.emitted = Fragment.texts edited.rootFragments ∧
          (ReadsAs edited.emitted ↔ ¬ MeetsBrace edited.expressions
            (Printer.root { overrides := .corrected } edited.root)) := by
  refine ⟨_, congrArg (Except.map _) hts, fun b hb ns => ?_⟩
  obtain ⟨t, ht, -, config, hconfig, hread⟩ := exists_readBlock_of_mem hb
  obtain ⟨hholes, hsafe⟩ := isSafe_of_readBlock (isIn_of_mem_findTemplates hts ht) hread ns
  have hes : StyleBlock.expressions { b with root := { b.root with nodes := ns } } =
      config.expressions := by
    simp [StyleBlock.expressions, hconfig]
  exact ⟨hes ▸ hholes, StyleBlock.texts_emitted _, by
    rw [StyleBlock.emitted, hes]
    exact readsAs_iff_not_meetsBrace hsafe⟩

/-- A rule whose selector has become a dollar sign opens a hole with its brace. -/
theorem not_readsAs_edited_dollar :
    let source : Text := "css`a\x7b\x7d`".toList
    let rule : Node :=
      .rule { selector := ['$'], before := some [], between := some [], after := some [] } []
    ∃ doc, parse { dialect := .css, matcher := {}, directive := [] } none source = .ok doc ∧
      ∃ b ∈ doc.blocks,
        ¬ ReadsAs (StyleBlock.emitted { b with root := { b.root with nodes := [rule] } }) := by
  intro source rule
  let t : Tagged :=
    { tag := .identifier "css".toList, span := ⟨0, 8⟩
      quasis := [⟨⟨4, 7⟩, ⟨1, 5⟩, ⟨1, 8⟩, "a\x7b\x7d".toList⟩], holes := [], leadingComments := [] }
  have hts : findTemplates source = .ok [t] := by decide +kernel
  obtain ⟨doc, hdoc, hall⟩ := @readsAs_edited_iff none source .css {} [] [t] hts
  let fragments (b : StyleBlock) : List Fragment :=
    Printer.root { overrides := .corrected } { b.root with nodes := [rule] }
  have hrun : (parse { dialect := .css, matcher := {}, directive := [] } none source).toOption.map
      (fun d => d.blocks.map fun b =>
        ((((fragments b).take 1).flatMap (Fragment.emitted b.expressions)).getLast?,
          (((fragments b).drop 1).flatMap (Fragment.emitted b.expressions)).head?)) =
      some [(some (.literal ['$']), some (.literal ['{']))] := by decide +kernel
  rw [hdoc, Except.toOption, Option.map_some, Option.some.injEq, List.map_eq_singleton_iff] at hrun
  obtain ⟨b, hb, hmeets⟩ := hrun
  obtain ⟨hlast, hhead⟩ := Prod.mk.inj hmeets
  have hmem : b ∈ doc.blocks := hb ▸ List.mem_singleton_self b
  refine ⟨doc, hdoc, b, hmem, fun hreads => ?_⟩
  exact ((hall b hmem [rule]).2.2.1 hreads)
    ⟨_, _, (List.take_append_drop 1 (fragments b)).symm, hlast, hhead⟩

end Assembly

end StyleBlocks
