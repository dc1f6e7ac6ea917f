import StyleBlocks.Proofs.Block.RawAtoms
import StyleBlocks.Proofs.Sheet.TokenForm

/-!
# Tokens do not cut atoms

Tokens are cut by characters and know nothing of atoms. Still the tokens of the text of atoms are runs
of these: whatever ends a token is an atom of its own, or the end of an escape pair, or the end of a
placeholder. There is one exception. A comment with a star in front of a placeholder ends with the
slash that the placeholder begins with, and breaks it. Among sound atoms there is none: no star
stands in front of a placeholder.

## Main results

* `isCut_or_breaks_of_commentRun`: a comment ends with an atom or breaks a placeholder.
* `isCut_cut`: no other token ends within an atom.
* `cuts_of_tokenize_of_not_breaks`: the tokens of a text are runs of its atoms, if no comment breaks a
  placeholder.
* `cuts_of_tokenize`: the tokens of the text of sound atoms are runs of them.
-/

namespace StyleBlocks

open Sheet

namespace Placeholder

/-- Atoms **have a cut** behind the text `p` if some of them, from the first on, have that text. -/
def IsCut (m : List Piece) (p : Text) : Prop :=
  ∃ u v, m = u ++ v ∧ texts u = p

/-- Texts **cut** atoms if the atoms are runs with these texts. -/
def Cuts : List Text → List Piece → Prop
  | [], m => m = []
  | t :: ts, m => ∃ u v, m = u ++ v ∧ texts u = t ∧ Cuts ts v

/-- Atoms are **paired** if a bare backslash among them stands in front of a line feed. -/
structure Paired (m : List Piece) : Prop where
  isAtom : ∀ a ∈ m, IsAtom a
  newline : ∀ u v, m = u ++ .literal ['\\'] :: v → v.head? = some (.literal ['\n'])

/-- A text **breaks a placeholder** if it is that of some atoms and of the first character of the
placeholder behind them. -/
def Breaks (m : List Piece) (p : Text) : Prop :=
  ∃ u i v, m = u ++ .hole i (create i) :: v ∧ p = texts u ++ ['/']

section

variable {m : List Piece} {a : Piece} {p t : Text}

/-- Sound atoms have no bare backslashes. -/
theorem Sound.paired (h : Sound m) : Paired m where
  isAtom := h.isAtom
  newline u v hcut := absurd (by simp [hcut]) h.backslash

/-- What atoms end with is paired if they are. -/
theorem Paired.of_suffix {u : List Piece} (h : Paired m) (hu : u <:+ m) : Paired u where
  isAtom a ha := h.isAtom a (hu.subset ha)
  newline := by
    obtain ⟨w, rfl⟩ := hu
    intro x y hcut
    exact h.newline (w ++ x) y (by rw [hcut, List.append_assoc])

/-- Atoms behind one of paired atoms are paired. -/
theorem Paired.tail (h : Paired (a :: m)) : Paired m :=
  h.of_suffix (List.suffix_cons a m)

/-- A text that breaks a placeholder does so behind one more atom. -/
theorem Breaks.cons (a : Piece) (h : Breaks m p) : Breaks (a :: m) (a.text ++ p) := by
  obtain ⟨u, i, v, rfl, rfl⟩ := h
  exact ⟨a :: u, i, v, rfl, by simp⟩

/-- Atoms have a cut in front of the first one. -/
theorem IsCut.nil (m : List Piece) : IsCut m [] :=
  ⟨[], m, rfl, rfl⟩

/-- A cut is one behind an atom more. -/
theorem IsCut.cons (a : Piece) (h : IsCut m p) : IsCut (a :: m) (a.text ++ p) := by
  obtain ⟨u, v, rfl, rfl⟩ := h
  exact ⟨a :: u, v, rfl, rfl⟩

/-- There is a cut behind the first atom. -/
theorem IsCut.single (a : Piece) (m : List Piece) : IsCut (a :: m) a.text := by
  simpa using (IsCut.nil m).cons a

/-! ### Where tokens end -/

/-- A character that atoms can only end in ends one. -/
theorem isCut_of_prefix {x : Char} (hx : x ≠ '\\') (hhole : ∀ i, x ∉ create i)
    (hm : ∀ a ∈ m, IsAtom a)
    (h : p ++ [x] <+: texts m) : IsCut m (p ++ [x]) := by
  induction m generalizing p with
  | nil => simp at h
  | cons a m ih =>
      have ha := hm a List.mem_cons_self
      obtain ⟨r, hr⟩ := h
      rcases List.append_eq_append_iff.1 hr with ⟨q, hq, -⟩ | ⟨q, hq, hrest⟩
      · -- the character is in the first atom
        have hend : a.text = p ++ [x] := by
          cases ha with
          | char c =>
              cases p with
              | nil => simpa [eq_comm] using (List.cons.inj hq).1
              | cons d p => simp at hq
          | pair c hc =>
              match p with
              | [] => exact absurd (List.cons.inj hq).1.symm hx
              | [d] =>
                  obtain ⟨rfl, rfl, -⟩ : '\\' = d ∧ c = x ∧ q = [] := by simpa using hq
                  rfl
              | d :: e :: p => simp at hq
          | hole i hi => exact absurd (by rw [text_hole] at hq; simp [hq]) (hhole i)
        rw [← hend]
        exact .single a m
      · cases q using List.reverseRecOn with
        | nil =>
            rw [List.append_nil] at hq
            rw [hq]
            exact .single a m
        | append_singleton q y =>
            rw [← List.append_assoc] at hq
            obtain ⟨rfl, hy⟩ := List.append_inj' hq rfl
            obtain rfl : x = y := by simpa using hy
            rw [List.append_assoc]
            exact (ih (fun b hb => hm b (List.mem_cons_of_mem _ hb)) ⟨r, hrest.symm⟩).cons a

/-- A run of characters ends with an atom if every atom is in the run or starts behind it. -/
theorem isCut_takeWhile {f : Char → Bool}
    (h : ∀ a ∈ m, (∀ c ∈ a.text, f c = true) ∨ ∃ c t, a.text = c :: t ∧ f c = false) :
    IsCut m ((texts m).takeWhile f) := by
  induction m with
  | nil => exact .nil []
  | cons a m ih =>
      rcases h a List.mem_cons_self with hall | ⟨c, t, ha, hc⟩
      · rw [texts_cons, List.takeWhile_append_of_pos hall]
        exact (ih fun b hb => h b (List.mem_cons_of_mem _ hb)).cons a
      · rw [texts_cons, ha, List.cons_append, List.takeWhile_cons_of_neg (by simp [hc])]
        exact .nil _

/-- A run that neither backslashes nor slashes are part of ends with an atom. -/
theorem isCut_takeWhile_of_eq_false {f : Char → Bool} (hb : f '\\' = false) (hs : f '/' = false)
    (hm : ∀ a ∈ m, IsAtom a) : IsCut m ((texts m).takeWhile f) := by
  refine isCut_takeWhile fun a ha => ?_
  cases hm a ha with
  | char c =>
      cases hc : f c with
      | true => exact Or.inl (by simpa using hc)
      | false => exact Or.inr ⟨c, [], rfl, hc⟩
  | pair c hc => exact Or.inr ⟨'\\', [c], rfl, hb⟩
  | hole i hi => exact Or.inr ⟨'/', _, rfl, hs⟩

/-- A line ends with an atom. -/
theorem isCut_line (hm : ∀ a ∈ m, IsAtom a) : IsCut m ((texts m).takeWhile (· ≠ '\n')) := by
  refine isCut_takeWhile fun a ha => ?_
  rcases (hm a ha).newline_or with rfl | ⟨-, hn⟩
  · exact Or.inr ⟨'\n', [], rfl, by simp⟩
  · exact Or.inl fun c hc => by simpa using fun h : c = '\n' => hn (h ▸ hc)

/-- A run of word characters and escape pairs ends with an atom. -/
theorem isCut_wordRun {m : List Piece} (h : Paired m) : IsCut m (Token.wordRun (texts m)) := by
  match m with
  | [] => exact .nil []
  | a :: m =>
      have ih := isCut_wordRun h.tail
      cases h.isAtom a List.mem_cons_self with
      | pair c hc => exact ih.cons (.literal ['\\', c])
      | hole i hi => exact .nil _
      | char c =>
          by_cases hc : c = '\\'
          · subst hc
            -- the line feed behind the backslash is an atom of its own
            obtain ⟨m, rfl⟩ := List.head?_eq_some_iff.1 (h.newline [] m rfl)
            exact ((isCut_wordRun h.tail.tail).cons (.literal ['\n'])).cons (.literal ['\\'])
          · have hrun : Token.wordRun (texts (.literal [c] :: m)) =
                if Token.isWordPart c then c :: Token.wordRun (texts m) else [] := by
              rw [texts_cons, text_literal, List.singleton_append, Token.wordRun]
              exact fun _ _ h _ => hc h
            rw [hrun]
            split
            · exact ih.cons (.literal [c])
            · exact .nil _

/-! ### Comments -/

/-- A comment goes on behind a character that does not end it. -/
theorem commentRun_cons {c : Char} {t : Text} (h : c = '*' → t.head? ≠ some '/') :
    Text.commentRun (c :: t) = (Text.commentRun t).map (c :: ·) := by
  rw [Text.commentRun]
  rintro u rfl rfl
  exact h rfl rfl

/-- A comment ends at the first star with a slash behind it. -/
theorem commentRun_append {s : Text} (hs : '/' ∉ s) (t : Text) :
    Text.commentRun (s ++ '*' :: '/' :: t) = some (s ++ ['*', '/']) := by
  induction s with
  | nil => rfl
  | cons c s ih =>
      rw [List.mem_cons, not_or] at hs
      rw [List.cons_append, commentRun_cons, ih hs.2]
      · rfl
      · rintro rfl hhead
        cases s with
        | nil => simp at hhead
        | cons d s => exact hs.2 (by simp_all)

/-- What is between the marks of a placeholder has no slash. -/
theorem slash_notMem (i : Nat) : '/' ∉ mark ++ ':' :: Text.ofNat i := by
  have hmark : '/' ∉ mark := by decide
  have hdigits : '/' ∉ Text.ofNat i := fun h => absurd (isDigit_of_mem_ofNat h) (by decide)
  simp [hmark, hdigits]

/-- A comment that a placeholder is in ends with it. -/
theorem commentRun_create (i : Nat) (t : Text) :
    Text.commentRun (create i ++ t) = some (create i) := by
  have hrun := commentRun_append (s := '*' :: (mark ++ ':' :: Text.ofNat i))
    (by simpa using slash_notMem i) t
  have hcut : create i ++ t = '/' :: ('*' :: (mark ++ ':' :: Text.ofNat i) ++ '*' :: '/' :: t) := by
    simp [create]
  rw [hcut, commentRun_cons (by simp), hrun]
  simp [create]

/-- A placeholder is a token. -/
theorem cut_create {i : Nat} {c : Char} {t u : Text} (h : create i ++ u = c :: t) :
    Token.cut c t = create i := by
  have hrun := commentRun_append (slash_notMem i) u
  rw [List.append_assoc, List.cons_append] at hrun
  obtain ⟨rfl, rfl⟩ : c = '/' ∧ t = '*' :: (mark ++ ':' :: Text.ofNat i ++ '*' :: '/' :: u) := by
    simpa [create, eq_comm] using h
  simp [Token.cut, Token.body, Token.isStyleBlank, create, hrun]

/-- **A comment ends with an atom** or breaks a placeholder. -/
theorem isCut_or_breaks_of_commentRun {r : Text} (hm : ∀ a ∈ m, IsAtom a)
    (h : Text.commentRun (texts m) = some r) : IsCut m r ∨ Breaks m r := by
  induction m generalizing r with
  | nil => simp [Text.commentRun] at h
  | cons a m ih =>
      have hm' : ∀ b ∈ m, IsAtom b := fun b hb => hm b (List.mem_cons_of_mem _ hb)
      -- behind the last character `c` of the first atom, the comment ends at once or runs on
      have hstep : ∀ {c r}, Text.commentRun (c :: texts m) = some r →
          ∃ s, r = c :: s ∧ (IsCut m s ∨ Breaks m s) := by
        intro c r h
        by_cases hend : c = '*' ∧ (texts m).head? = some '/'
        · obtain ⟨rfl, hhead⟩ := hend
          cases m with
          | nil => simp at hhead
          | cons b m =>
              cases hm' b List.mem_cons_self with
              | pair d hd => simp at hhead
              | char d =>
                  obtain rfl : d = '/' := by simpa using hhead
                  exact ⟨['/'], by simpa [Text.commentRun, eq_comm] using h, Or.inl (.single _ m)⟩
              | hole i hi =>
                  exact ⟨['/'], by simpa [Text.commentRun, create, eq_comm] using h,
                    Or.inr ⟨[], i, m, rfl, rfl⟩⟩
        · rw [commentRun_cons fun hc hhead => hend ⟨hc, hhead⟩, Option.map_eq_some_iff] at h
          obtain ⟨s, hs, rfl⟩ := h
          exact ⟨s, rfl, ih hm' hs⟩
      cases hm a List.mem_cons_self with
      | char c =>
          obtain ⟨s, rfl, hs⟩ := hstep (c := c) h
          exact hs.imp (IsCut.cons (.literal [c])) (Breaks.cons (.literal [c]))
      | pair c hc =>
          rw [texts_cons, text_literal, List.cons_append, List.singleton_append,
            commentRun_cons (by simp), Option.map_eq_some_iff] at h
          obtain ⟨q, hq, rfl⟩ := h
          obtain ⟨s, rfl, hs⟩ := hstep hq
          exact hs.imp (IsCut.cons (.literal ['\\', c])) (Breaks.cons (.literal ['\\', c]))
      | hole i hi =>
          rw [texts_cons, text_hole, commentRun_create, Option.some.injEq] at h
          exact Or.inl (h ▸ IsCut.single (.hole i (create i)) m)

/-! ### Tokens -/

/-- A piece that a character begins ends with an atom if it is a token, unless it is a comment that
breaks a placeholder. -/
theorem isCut_body {c : Char} {w : Text} {kind : TokenKind} (h : Paired (.literal [c] :: m))
    (hbody : Token.body c (texts m) = (some kind, w)) :
    IsCut m w ∨ kind = .comment ∧ Breaks m w := by
  have hm := h.tail.isAtom
  have hpre : w <+: texts m := by simpa [hbody] using Token.body_isPrefix c (texts m)
  -- a closing character is part of no placeholder and no backslash
  have hclosed : ∀ {run : Text} {x : Char},
      w = run ++ [x] → x ≠ '\\' → (∀ i, x ∉ create i) → IsCut m w :=
    fun hw hx hhole => hw ▸ isCut_of_prefix hx hhole hm (hw ▸ hpre)
  unfold Token.body at hbody
  split at hbody
  · cases hbody
    exact Or.inl (isCut_takeWhile_of_eq_false rfl rfl hm)
  split at hbody
  case h_1 u htexts _ =>
    split at hbody
    · next r hr =>
        cases hbody
        obtain ⟨m', rfl, rfl⟩ := exists_of_append (b := ['*']) (t := u) hm (by simp) htexts
        have hrun := isCut_or_breaks_of_commentRun h.tail.tail.isAtom hr
        exact hrun.imp (IsCut.cons (.literal ['*'])) fun hr => ⟨rfl, hr.cons (.literal ['*'])⟩
    · cases hbody
  case h_2 u htexts _ =>
    cases hbody
    have hline := isCut_line hm
    rw [htexts, List.takeWhile_cons_of_pos (by decide)] at hline
    exact Or.inl hline
  case h_4 | h_6 =>
    obtain ⟨-, rfl⟩ := Token.eq_of_closed hbody
    exact Or.inl (hclosed rfl (by decide) fun i => notMem_create rfl (by decide) i)
  case h_7 =>
    cases hbody
    exact Or.inl (isCut_takeWhile_of_eq_false rfl rfl hm)
  case h_16 | h_17 =>
    obtain ⟨-, rfl⟩ := Token.eq_of_closed hbody
    exact Or.inl (hclosed rfl (by decide) fun i => notMem_create rfl (by decide) i)
  case h_18 d u htexts _ =>
    cases hbody
    obtain ⟨m', rfl⟩ := List.head?_eq_some_iff.1 (h.newline [] m rfl)
    obtain ⟨rfl, rfl⟩ : '\n' = d ∧ texts m' = u := by simpa using htexts
    exact Or.inl ((isCut_wordRun h.tail.tail).cons (.literal ['\n']))
  case h_19 => cases hbody
  case h_20 =>
    split at hbody
    · obtain ⟨-, rfl⟩ := Token.eq_of_closed hbody
      exact Or.inl (hclosed rfl (by decide) fun i => notMem_create rfl (by decide) i)
    · cases hbody
      exact Or.inl (isCut_wordRun h.tail)
  case h_21 =>
    cases hbody
    exact Or.inl (isCut_wordRun h.tail)
  all_goals
    cases hbody
    exact Or.inl (.nil m)

/-- **No token ends within an atom**, unless it is a comment that breaks a placeholder. -/
theorem isCut_cut {c : Char} {kind : TokenKind} (h : Paired m) (hm : texts m = c :: t)
    (hkind : (Token.body c t).1 = some kind) :
    IsCut m (Token.cut c t) ∨ kind = .comment ∧ Breaks m (Token.cut c t) := by
  have hbody : Token.body c t = (some kind, (Token.body c t).2) := Prod.ext hkind rfl
  cases m with
  | nil => simp at hm
  | cons a m =>
      cases h.isAtom a List.mem_cons_self with
      | char d =>
          obtain ⟨rfl, rfl⟩ : d = c ∧ texts m = t := by simpa using hm
          exact (isCut_body h hbody).imp (IsCut.cons (.literal [d])) fun hbreaks =>
            ⟨hbreaks.1, hbreaks.2.cons (.literal [d])⟩
      | pair d hd =>
          obtain ⟨rfl, rfl⟩ : '\\' = c ∧ d :: texts m = t := by simpa using hm
          exact Or.inl ((isCut_wordRun h.tail).cons (.literal ['\\', d]))
      | hole i hi =>
          rw [cut_create hm]
          exact Or.inl (.single (.hole i (create i)) m)

/-- Tokens from an offset on are runs of atoms, if no comment among them breaks a placeholder. -/
theorem cuts_of_tokenizeFrom {lines : LineMap} {offset : Nat} {ts : List Sheet.Token}
    (h : Paired m) (hm : texts m = t) (hts : Token.tokenizeFrom lines offset t = .ok ts)
    (hkeep : ∀ k ∈ ts, k.kind = .comment → ∀ u v, m = u ++ v →
      k.start = offset + Text.byteSize (texts u) → ¬ Breaks v k.text) :
    Cuts (ts.map Sheet.Token.text) m := by
  fun_induction Token.tokenizeFrom lines offset t generalizing m ts with
  | case1 =>
      cases hts
      cases m with
      | nil => rfl
      | cons a m => simp [(h.isAtom a List.mem_cons_self).text_ne_nil] at hm
  | case2 => contradiction
  | case3 offset c t _ kind hkind ih =>
      cases hr : Token.tokenizeFrom lines (offset + Text.byteSize (Token.cut c t))
        (Sheet.Token.rest c t) with
      | error e => simp [hr, Except.map] at hts
      | ok us =>
          simp only [hr, Except.map, Except.ok.injEq] at hts
          subst hts
          obtain ⟨u, v, rfl, hu⟩ : IsCut m (Token.cut c t) := by
            refine (isCut_cut h hm hkind).resolve_right fun hbreaks => ?_
            exact hkeep _ List.mem_cons_self hbreaks.1 [] m rfl (by simp) hbreaks.2
          refine ⟨u, v, rfl, hu, ih (h.of_suffix (List.suffix_append u v)) ?_ hr ?_⟩
          · rw [texts_append, hu, ← Token.cut_append_rest c t] at hm
            exact List.append_cancel_left hm
          · rintro k hk hcomment u' v' rfl hstart
            refine hkeep k (List.mem_cons_of_mem _ hk) hcomment (u ++ u') v' (by simp) ?_
            rw [hstart, texts_append, hu, Text.byteSize_append, Nat.add_assoc]

/-- **The tokens of the text of paired atoms** are runs of them, if no comment among them breaks a
placeholder. -/
theorem cuts_of_tokenize_of_not_breaks {ts : List Sheet.Token} (h : Paired m)
    (hts : Token.tokenize (texts m) = .ok ts)
    (hkeep : ∀ k ∈ ts, k.kind = .comment → ∀ u v, m = u ++ v →
      k.start = Text.byteSize (texts u) → ¬ Breaks v k.text) :
    Cuts (ts.map Sheet.Token.text) m :=
  cuts_of_tokenizeFrom h rfl hts (by simpa using hkeep)

/-- No comment breaks a placeholder among sound atoms: no star stands in front of one. -/
theorem Sound.not_breaks {k : Sheet.Token} (h : Sound m) (hk : k.HasForm)
    (hcomment : k.kind = .comment) : ¬ Breaks m k.text := by
  rintro ⟨u, i, v, rfl, hu⟩
  rw [Sheet.Token.HasForm, hcomment] at hk
  obtain ⟨inner, hinner⟩ := hk
  have hcut : texts u ++ ['/'] = '/' :: '*' :: (inner ++ ['*']) ++ ['/'] := by
    rw [← hu, hinner]
    simp
  have hstar : texts u = '/' :: '*' :: (inner ++ ['*']) := List.append_cancel_right hcut
  have hlast := getLast?_texts (m := u) fun a ha => h.isAtom a (List.mem_append_left _ ha)
  have hend : (texts u).getLast? = some '*' := by
    rw [hstar]
    exact List.getLast?_concat (l := '/' :: '*' :: inner)
  rw [hend, eq_comm, Option.bind_eq_some_iff] at hlast
  obtain ⟨b, hb, hlast⟩ := hlast
  exact ((List.isChain_append.1 h.chain).2.2 b hb _ rfl).hole rfl hlast

/-- **The tokens of the text of sound atoms** are runs of them. -/
theorem cuts_of_tokenize {ts : List Sheet.Token} (h : Sound m)
    (hts : Token.tokenize (texts m) = .ok ts) :
    Cuts (ts.map Sheet.Token.text) m := by
  refine cuts_of_tokenize_of_not_breaks h.paired hts fun k hk hcomment u v hcut _ => ?_
  exact (h.of_infix (hcut ▸ (List.suffix_append u v).isInfix)).not_breaks
    (Sheet.Token.hasForm_of_mem hts hk) hcomment

end

end Placeholder

end StyleBlocks
