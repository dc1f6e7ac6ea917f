import Mathlib.Data.List.TakeWhile
import StyleBlocks.Proofs.Location.Advance
import StyleBlocks.Proofs.Template.LexemeEnds
import StyleBlocks.Sheet.Token

/-!
# Seams between tokens

A token is cut off as long as it can be. Whether a text is a token in front of another text is
therefore two questions. The first is about the text by itself: it must have the shape of a token.
The second is about the first character behind it: it must not go on the token. What stands behind
that character does not matter, so that tokens stay as they are when the text behind them is replaced
by one that does not go on the last of them.

## Main results

* `Token.shape_of_body`, `Token.body_of_shape`: a piece is a token exactly if it has the shape of one
  and what follows does not go on it.
* `Token.tokenizeFrom_eq_ok_cons`: the tokens of a text, told one by one.
* `Token.tokenizeFrom_append`: the text behind tokens can be replaced.
-/

namespace StyleBlocks

/-- A run ends where its characters do. -/
theorem takeWhile_append_eq_left {p : Char → Bool} {t u : Text} :
    (t ++ u).takeWhile p = t ↔ (∀ c ∈ t, p c = true) ∧ ∀ c ∈ u.head?, p c = false := by
  induction t with
  | nil =>
      cases u with
      | nil => simp
      | cons c u => simp [List.takeWhile_cons]
  | cons c t ih => cases hc : p c <;> simp [hc, ih]

/-- A mapped result is a value if the result is one. -/
theorem map_eq_ok_iff {ε α β : Type} {f : α → β} {r : Except ε α} {b : β} :
    r.map f = .ok b ↔ ∃ a, r = .ok a ∧ f a = b := by
  cases r <;> simp [Except.map]

/-- Mapping a result twice is mapping it once. -/
theorem map_map {ε α β γ : Type} (f : α → β) (g : β → γ) (r : Except ε α) :
    (r.map f).map g = r.map (g ∘ f) := by
  cases r <;> rfl

namespace Sheet.Token

/-! ### Shapes -/

/-- The characters that are tokens whatever follows them. -/
def marks : List (Char × TokenKind) :=
  [('{', .openCurly), ('}', .closeCurly), (';', .semicolon), (':', .colon), ('(', .openParen),
    (')', .closeParen), ('[', .openSquare), (']', .closeSquare)]

/-- The **shapes** of tokens: the texts that are a token of a kind when nothing follows. -/
inductive Shape : TokenKind → Text → Prop
  | space {t : Text} (hne : t ≠ []) (ht : ∀ c ∈ t, isStyleBlank c = true) : Shape .space t
  | comment {t : Text} (ht : Text.commentRun t = some t) : Shape .comment ('/' :: '*' :: t)
  | lineComment {t : Text} (ht : '\n' ∉ t) : Shape .lineComment ('/' :: '/' :: t)
  | string {q : Char} {t : Text} (hq : q = '\x22' ∨ q = '\x27')
      (ht : stringRun q (t ++ [q]) = t) : Shape .string (q :: (t ++ [q]))
  | url {u r l : Char} {t : Text} (hu : sameLetter u 'u') (hr : sameLetter r 'r')
      (hl : sameLetter l 'l') (ht : urlRun t = t) : Shape .url (u :: r :: l :: '(' :: (t ++ [')']))
  | mark {c : Char} {kind : TokenKind} (h : (c, kind) ∈ marks) : Shape kind [c]
  | slash : Shape .delimiter ['/']
  | hash : Shape .delimiter ['#']
  | atWord {t : Text} (ht : ∀ c ∈ t, isAtWordPart c = true) : Shape .atWord ('@' :: t)
  | interpolation {c : Char} {t : Text} (hc : c = '#' ∨ c = '@') (ht : interpolationRun t = t) :
      Shape .interpolation (c :: '{' :: (t ++ ['}']))
  | word {t : Text} (hne : t ≠ []) (ht : wordRun t = t) : Shape .word t

/-- A word that begins an address if a parenthesis follows. -/
def IsUrlWord (t : Text) : Prop :=
  t.map Char.toLower = ['u', 'r', 'l']

/-- The word of an address is told letter by letter. -/
theorem isUrlWord_iff {c r l : Char} :
    IsUrlWord [c, r, l] ↔ sameLetter c 'u' ∧ sameLetter r 'r' ∧ sameLetter l 'l' := by
  simp [IsUrlWord, sameLetter]

/-- The word of an address has three letters. -/
theorem IsUrlWord.eq_cons {c : Char} {t : Text} (h : IsUrlWord (c :: t)) : ∃ r l, t = [r, l] := by
  match t with
  | [] | [_] | _ :: _ :: _ :: _ => simp [IsUrlWord] at h
  | [r, l] => exact ⟨r, l, rfl⟩

/-- A character **ends** a token of a kind with a text if it does not go on it. -/
def Ends (kind : TokenKind) (t : Text) (c : Char) : Prop :=
  match kind with
  | .space => isStyleBlank c = false
  | .lineComment => c = '\n'
  | .word => isWordPart c = false ∧ c ≠ '\\' ∧ (c = '(' → ¬ IsUrlWord t)
  | .atWord => isAtWordPart c = false ∧ (t = ['@'] → c ≠ '{')
  | .delimiter => (t = ['/'] → c ≠ '*' ∧ c ≠ '/') ∧ (t = ['#'] → c ≠ '{')
  | _ => True

/-- A token **stops** in front of a text if the first character does not go on it. -/
def StopsAt (k : Token) (t : Text) : Prop :=
  ∀ c ∈ t.head?, Ends k.kind k.text c

/-! ### Runs -/

/-- A word goes on with a character other than a backslash if that is part of words. -/
theorem wordRun_cons {c : Char} (hc : c ≠ '\\') (t : Text) :
    wordRun (c :: t) = if isWordPart c then c :: wordRun t else [] := by
  rw [wordRun]
  exact fun _ _ h _ => hc h

/-- A string goes on with a character other than a backslash unless that is its quote or a line
feed. -/
theorem stringRun_cons {q c : Char} (hc : c ≠ '\\') (t : Text) :
    stringRun q (c :: t) = if c == q || c == '\n' then [] else c :: stringRun q t := by
  rw [stringRun]
  all_goals simp [hc]

/-- A character that is part of words is no backslash. -/
theorem ne_backslash_of_isWordPart {c : Char} (hc : isWordPart c = true) : c ≠ '\\' := by
  rintro rfl
  exact absurd hc (by decide)

/-- A word goes on with a character that is part of words. -/
theorem wordRun_cons_of_isWordPart {c : Char} (hc : isWordPart c = true) (t : Text) :
    wordRun (c :: t) = c :: wordRun t := by
  rw [wordRun_cons (ne_backslash_of_isWordPart hc), if_pos hc]

/-- A run of word characters and escape pairs ends where no such character or pair follows. -/
theorem wordRun_append_eq_left {t u : Text} (hu : u ≠ ['\\']) :
    wordRun (t ++ u) = t ↔
      wordRun t = t ∧ ∀ c ∈ u.head?, isWordPart c = false ∧ c ≠ '\\' := by
  fun_induction wordRun t with
  | case1 =>
      rcases u with _ | ⟨c, _ | ⟨d, u⟩⟩
      · simp [wordRun]
      · have hc : c ≠ '\\' := fun h => hu (by rw [h])
        simp [wordRun_cons hc, wordRun, hc]
      · by_cases hc : c = '\\'
        · simp [hc, wordRun]
        · simp [wordRun_cons hc, hc]
  | case2 c t ih => simp [wordRun, ih]
  | case3 c t hpair hc ih => simp [wordRun_cons_of_isWordPart hc, ih]
  | case4 c t hpair hc =>
      have hfalse : ∀ {s : Text}, ¬ [] = c :: s := by simp
      refine iff_of_false (fun h => ?_) (fun h => hfalse h.1)
      rcases eq_or_ne c '\\' with rfl | hne
      · cases t with
        | nil =>
            cases u with
            | nil => simp [wordRun, hc] at h
            | cons d u => simp [wordRun] at h
        | cons d t => exact hpair d t rfl rfl
      · simp [wordRun_cons hne, hc] at h

/-- A string ends at its closing quote, whatever follows. -/
theorem stringRun_append {q : Char} (hq : q ≠ '\\') (t u : Text) :
    stringRun q (t ++ q :: u) = t ↔ stringRun q (t ++ [q]) = t := by
  match t with
  | [] => simp [stringRun_cons hq]
  | [c] =>
      by_cases hc : c = '\\'
      · subst hc
        simp [stringRun]
      · simp [stringRun_cons hc, stringRun_cons hq]
  | c :: d :: t =>
      by_cases hc : c = '\\'
      · subst hc
        simp [stringRun, stringRun_append hq t u]
      · have ih := stringRun_append hq (d :: t) u
        simp only [List.cons_append] at ih ⊢
        rw [stringRun_cons hc, stringRun_cons hc]
        split
        · simp
        · simp [ih]

/-- A comment by itself is the comment that it was cut from. -/
theorem commentRun_of_eq_some {t r : Text} (h : Text.commentRun t = some r) :
    Text.commentRun r = some r := by
  fun_induction Text.commentRun t generalizing r with
  | case1 => contradiction
  | case2 t =>
      cases h
      rfl
  | case3 c t hne ih =>
      obtain ⟨s, hs, rfl⟩ := Option.map_eq_some_iff.1 h
      rw [Text.commentRun, ih hs]
      · rfl
      · rintro u rfl rfl
        obtain ⟨v, rfl⟩ := Text.commentRun_isPrefix hs
        exact hne (u ++ v) rfl rfl

/-! ### Pieces with a shape -/

/-- A closed run that is a token is of the kind it was meant to be. -/
theorem eq_of_closed {kind k : TokenKind} {run u : Text} {close : Char} {t : Text}
    (h : closed kind run close t = (some k, u)) : k = kind ∧ u = run ++ [close] := by
  rw [closed] at h
  split at h
  · cases h
    exact ⟨rfl, rfl⟩
  · cases h

/-- A run of word characters and pairs behind a word character is a word, unless it begins an
address. -/
theorem shape_word {c : Char} {t u : Text} (hu : u ≠ ['\\']) (hc : isWordPart c = true)
    (hrun : wordRun (t ++ u) = t) (hurl : u.head? = some '(' → ¬ IsUrlWord (c :: t)) :
    Shape .word (c :: t) ∧ ∀ d ∈ u.head?, Ends .word (c :: t) d := by
  obtain ⟨hself, hends⟩ := (wordRun_append_eq_left hu).1 hrun
  refine ⟨.word (List.cons_ne_nil _ _) ?_, fun d hd => ⟨(hends d hd).1, (hends d hd).2, ?_⟩⟩
  · rw [wordRun_cons_of_isWordPart hc, hself]
  · rintro rfl
    exact hurl hd

/-- A quoted run that its quote closes is a string. -/
theorem shape_string {q : Char} {t u : Text} {kind : TokenKind} (hq : q = '\x22' ∨ q = '\x27')
    (h : closed .string (stringRun q (t ++ u)) q (t ++ u) = (some kind, t)) :
    Shape kind (q :: t) ∧ ∀ d ∈ u.head?, Ends kind (q :: t) d := by
  obtain ⟨rfl, ht⟩ := eq_of_closed h
  have hne : q ≠ '\\' := by rcases hq with rfl | rfl <;> decide
  have hrun : stringRun q (stringRun q (t ++ u) ++ q :: u) = stringRun q (t ++ u) := by
    conv => lhs; rw [List.append_cons, ← ht]
  rw [ht]
  exact ⟨.string hq ((stringRun_append hne _ _).1 hrun), fun _ _ => trivial⟩

/-- Braces behind a number sign or an at sign are an interpolation. -/
theorem shape_interpolation {c : Char} {t u v : Text} {kind : TokenKind} (hc : c = '#' ∨ c = '@')
    (h : closed .interpolation ('{' :: interpolationRun v) '}' ('{' :: v) = (some kind, t)) :
    Shape kind (c :: t) ∧ ∀ d ∈ u.head?, Ends kind (c :: t) d := by
  obtain ⟨rfl, rfl⟩ := eq_of_closed h
  exact ⟨.interpolation hc List.takeWhile_idem, fun _ _ => trivial⟩

/-- A piece that is a token has a shape by itself, and what follows does not go on it. -/
theorem shape_of_body {c : Char} {t u : Text} {kind : TokenKind} (hu : u ≠ ['\\'])
    (h : body c (t ++ u) = (some kind, t)) :
    Shape kind (c :: t) ∧ ∀ d ∈ u.head?, Ends kind (c :: t) d := by
  generalize hs : t ++ u = s at h
  unfold body at h
  split at h
  · next hc =>
      simp only [Prod.mk.injEq, Option.some.injEq] at h
      obtain ⟨rfl, hrun⟩ := h
      obtain ⟨hall, hends⟩ := takeWhile_append_eq_left.1 (hs ▸ hrun)
      exact ⟨.space (List.cons_ne_nil _ _) (by simpa [hc] using hall), hends⟩
  next hblank =>
  split at h
  case h_1 =>
    split at h
    · next r hr =>
        cases h
        exact ⟨.comment (commentRun_of_eq_some hr), fun _ _ => trivial⟩
    · cases h
  case h_2 v =>
    simp only [Prod.mk.injEq, Option.some.injEq] at h
    obtain ⟨rfl, rfl⟩ := h
    have hrun : v.takeWhile (· ≠ '\n') ++ u = v := by simpa using hs
    obtain ⟨hall, hends⟩ := takeWhile_append_eq_left.1 (congrArg (List.takeWhile (· ≠ '\n')) hrun)
    exact ⟨.lineComment fun hn => by simpa using hall _ hn, by simpa [Ends] using hends⟩
  case h_3 hstar hslash =>
    simp only [Prod.mk.injEq, Option.some.injEq] at h
    obtain ⟨rfl, rfl⟩ := h
    obtain rfl : u = s := hs
    refine ⟨.slash, fun d hd => ⟨fun _ => ⟨?_, ?_⟩, fun h => by simp at h⟩⟩
    · rintro rfl
      obtain ⟨v, rfl⟩ := List.head?_eq_some_iff.1 hd
      exact hstar v rfl
    · rintro rfl
      obtain ⟨v, rfl⟩ := List.head?_eq_some_iff.1 hd
      exact hslash v rfl
  case h_4 => exact shape_interpolation (Or.inl rfl) h
  case h_5 hbrace =>
    simp only [Prod.mk.injEq, Option.some.injEq] at h
    obtain ⟨rfl, rfl⟩ := h
    obtain rfl : u = s := hs
    refine ⟨.hash, fun d hd => ⟨fun h => by simp at h, fun _ => ?_⟩⟩
    rintro rfl
    obtain ⟨v, rfl⟩ := List.head?_eq_some_iff.1 hd
    exact hbrace v rfl
  case h_6 => exact shape_interpolation (Or.inr rfl) h
  case h_7 hbrace =>
    simp only [Prod.mk.injEq, Option.some.injEq] at h
    obtain ⟨rfl, hrun⟩ := h
    obtain ⟨hall, hends⟩ := takeWhile_append_eq_left.1 (hs ▸ hrun)
    refine ⟨.atWord hall, fun d hd => ⟨hends d hd, ?_⟩⟩
    rintro ht rfl
    obtain rfl : t = [] := by simpa using ht
    obtain ⟨v, rfl⟩ := List.head?_eq_some_iff.1 hd
    exact hbrace v hs.symm
  case h_16 => exact shape_string (Or.inl rfl) (hs ▸ h)
  case h_17 => exact shape_string (Or.inr rfl) (hs ▸ h)
  case h_18 d v =>
    simp only [Prod.mk.injEq, Option.some.injEq] at h
    obtain ⟨rfl, rfl⟩ := h
    have hrun : wordRun v ++ u = v := by simpa using hs
    obtain ⟨hself, hends⟩ := (wordRun_append_eq_left hu).1 (congrArg wordRun hrun)
    refine ⟨.word (List.cons_ne_nil _ _) (by simp [wordRun, hself]), fun e he => ?_⟩
    exact ⟨(hends e he).1, (hends e he).2, fun _ hurl => by simp [IsUrlWord] at hurl⟩
  case h_19 => cases h
  case h_20 =>
    split at h
    · next hletters =>
        obtain ⟨rfl, rfl⟩ := eq_of_closed h
        exact ⟨.url hletters.1 hletters.2.1 hletters.2.2 List.takeWhile_idem,
          fun _ _ => trivial⟩
    · next hletters =>
        simp only [Prod.mk.injEq, Option.some.injEq] at h
        obtain ⟨rfl, hrun⟩ := h
        refine shape_word hu (by simp_all [isWordPart]) (hs ▸ hrun) fun hparen hurl => hletters ?_
        obtain ⟨v, rfl⟩ := List.head?_eq_some_iff.1 hparen
        obtain ⟨r, l, rfl⟩ := hurl.eq_cons
        obtain ⟨rfl, rfl, -⟩ : r = _ ∧ l = _ ∧ v = _ := by simpa using hs
        exact isUrlWord_iff.1 hurl
  case h_21 hurls _ _ _ _ _ _ =>
    simp only [Prod.mk.injEq, Option.some.injEq] at h
    obtain ⟨rfl, hrun⟩ := h
    refine shape_word hu (by cases s <;> simp_all [isWordPart]) (hs ▸ hrun) fun hparen hurl => ?_
    obtain ⟨v, rfl⟩ := List.head?_eq_some_iff.1 hparen
    obtain ⟨r, l, rfl⟩ := hurl.eq_cons
    exact hurls r l v hs.symm
  all_goals
    simp only [Prod.mk.injEq, Option.some.injEq] at h
    obtain ⟨rfl, rfl⟩ := h
    exact ⟨.mark (by decide), fun _ _ => trivial⟩

/-- The letters of an address are word characters, upper or lower case. -/
theorem isWordPart_of_sameLetter {c letter : Char} (h : sameLetter c letter = true)
    (hletter : isWordPart letter = true) : isWordPart c = true := by
  by_contra hc
  have hself : c.toLower = c := by
    simp only [isWordPart, isStyleBlank, Bool.not_eq_true', Bool.not_eq_false, Bool.or_eq_true,
      beq_iff_eq, String.reduceToList, List.contains_eq_mem, decide_eq_true_eq, List.mem_cons,
      List.not_mem_nil, or_false, or_assoc] at hc
    rcases hc with rfl | rfl | rfl | rfl | rfl | rfl | rfl | rfl | rfl | rfl | rfl | rfl | rfl |
      rfl | rfl | rfl | rfl | rfl | rfl
    all_goals rfl
  rw [sameLetter, hself, beq_iff_eq] at h
  exact hc (h ▸ hletter)

/-- The letters of an address with a parenthesis begin one. -/
theorem body_url {c r l : Char} (hc : sameLetter c 'u') (hr : sameLetter r 'r')
    (hl : sameLetter l 'l') (t : Text) :
    body c (r :: l :: '(' :: t) =
      closed .url (r :: l :: '(' :: urlRun t) ')' (r :: l :: '(' :: t) := by
  have hword := isWordPart_of_sameLetter hc rfl
  simp only [isWordPart, Bool.not_eq_true', Bool.or_eq_false_iff] at hword
  unfold body
  rw [if_neg (by simp [hword.1])]
  split
  case h_20 h =>
    obtain ⟨rfl, rfl, rfl⟩ : r = _ ∧ l = _ ∧ t = _ := by simpa using h
    rw [if_pos ⟨hc, hr, hl⟩]
  case h_21 h _ _ _ _ _ _ => exact absurd rfl (h r l t)
  all_goals exact absurd hc (by decide)

/-- A word character begins a word, unless it begins an address. -/
theorem body_word {c : Char} (hc : isWordPart c = true) {t : Text}
    (hurl : ∀ r l u, IsUrlWord [c, r, l] → t ≠ r :: l :: '(' :: u) :
    body c t = (some .word, wordRun t) := by
  simp only [isWordPart, Bool.not_eq_true', Bool.or_eq_false_iff, String.reduceToList,
    List.contains_eq_mem, List.mem_cons, List.not_mem_nil, or_false, decide_eq_false_iff_not,
    not_or] at hc
  unfold body
  rw [if_neg (by simp [hc.1])]
  split
  case h_20 =>
    rw [if_neg]
    exact fun hletters => hurl _ _ _ (isUrlWord_iff.2 hletters) rfl
  all_goals simp_all

/-- A quote begins a string. -/
theorem body_quote {q : Char} (hq : q = '\x22' ∨ q = '\x27') (t : Text) :
    body q t = closed .string (stringRun q t) q t := by
  rcases hq with rfl | rfl <;> rfl

/-- A hash or an at sign in front of a brace begins an interpolation. -/
theorem body_brace {c : Char} (hc : c = '#' ∨ c = '@') (t : Text) :
    body c ('{' :: t) = closed .interpolation ('{' :: interpolationRun t) '}' ('{' :: t) := by
  rcases hc with rfl | rfl <;> rfl

/-- An at sign that is not in front of a brace begins a word. -/
theorem body_at {t : Text} (ht : t.head? ≠ some '{') :
    body '@' t = (some .atWord, t.takeWhile isAtWordPart) := by
  cases t with
  | nil => rfl
  | cons d t =>
      unfold body
      rw [if_neg (by decide)]
      split
      all_goals simp_all

/-- A slash that begins no comment is a token by itself. -/
theorem body_slash {t : Text} (hstar : t.head? ≠ some '*') (hslash : t.head? ≠ some '/') :
    body '/' t = (some .delimiter, []) := by
  cases t with
  | nil => rfl
  | cons d t =>
      unfold body
      rw [if_neg (by decide)]
      split
      all_goals simp_all

/-- A hash that is not in front of a brace is a token by itself. -/
theorem body_hash {t : Text} (ht : t.head? ≠ some '{') : body '#' t = (some .delimiter, []) := by
  cases t with
  | nil => rfl
  | cons d t =>
      unfold body
      rw [if_neg (by decide)]
      split
      all_goals simp_all

/-- A mark is a token whatever follows it. -/
theorem body_mark {c : Char} {kind : TokenKind} (h : (c, kind) ∈ marks) (t : Text) :
    body c t = (some kind, []) := by
  simp only [marks, List.mem_cons, Prod.mk.injEq, List.not_mem_nil, or_false] at h
  rcases h with ⟨rfl, rfl⟩ | ⟨rfl, rfl⟩ | ⟨rfl, rfl⟩ | ⟨rfl, rfl⟩ | ⟨rfl, rfl⟩ | ⟨rfl, rfl⟩ |
    ⟨rfl, rfl⟩ | ⟨rfl, rfl⟩
  all_goals rfl

/-- A text with the shape of a token is a token in front of what does not go on it. -/
theorem body_of_shape {c : Char} {t u : Text} {kind : TokenKind} (hshape : Shape kind (c :: t))
    (hends : ∀ d ∈ u.head?, Ends kind (c :: t) d) : body c (t ++ u) = (some kind, t) := by
  generalize hs : c :: t = s at hshape hends
  cases hshape with
  | space hne hall =>
      obtain ⟨hc, ht⟩ : isStyleBlank c = true ∧ ∀ d ∈ t, isStyleBlank d = true := by
        simpa [← hs] using hall
      simp only [body, hc, if_true, takeWhile_append_eq_left.2 ⟨ht, hends⟩]
  | comment hr =>
      obtain ⟨rfl, rfl⟩ := List.cons.inj hs
      simp [body, isStyleBlank, Text.commentRun_append_of_eq_some hr]
  | @lineComment r hr =>
      obtain ⟨rfl, rfl⟩ := List.cons.inj hs
      have hrun : (r ++ u).takeWhile (· ≠ '\n') = r := by
        refine takeWhile_append_eq_left.2 ⟨fun d hd => ?_, fun d hd => ?_⟩
        · simpa using fun h : d = '\n' => hr (h ▸ hd)
        · simpa [Ends] using hends d hd
      rw [List.cons_append]
      exact congrArg (fun r => (some TokenKind.lineComment, '/' :: r)) hrun
  | @string q r hq hr =>
      obtain ⟨rfl, rfl⟩ := List.cons.inj hs
      have hne : c ≠ '\\' := by rcases hq with rfl | rfl <;> decide
      have hrun := (stringRun_append hne r u).2 hr
      rw [body_quote hq, List.append_assoc, List.singleton_append, hrun, closed, if_pos]
      exact ⟨u, by simp⟩
  | @url _ _ _ v hfst hsnd hthd hv =>
      obtain ⟨rfl, rfl⟩ := List.cons.inj hs
      have hrun : urlRun (v ++ ')' :: u) = v := by
        rw [urlRun, takeWhile_append_cons rfl]
        exact hv
      have hcut : v ++ [')'] ++ u = v ++ ')' :: u := by simp
      rw [List.cons_append, List.cons_append, List.cons_append, hcut, body_url hfst hsnd hthd, hrun,
        closed, if_pos ⟨u, by simp⟩]
      rfl
  | mark h =>
      obtain ⟨rfl, rfl⟩ := List.cons.inj hs
      exact body_mark h u
  | slash =>
      obtain ⟨rfl, rfl⟩ := List.cons.inj hs
      refine body_slash (fun h => ?_) (fun h => ?_)
      · exact ((hends '*' h).1 rfl).1 rfl
      · exact ((hends '/' h).1 rfl).2 rfl
  | hash =>
      obtain ⟨rfl, rfl⟩ := List.cons.inj hs
      exact body_hash fun h => (hends '{' h).2 rfl rfl
  | @atWord t hall =>
      obtain ⟨rfl, rfl⟩ := List.cons.inj hs
      have hrun := takeWhile_append_eq_left.2 ⟨hall, fun d hd => (hends d hd).1⟩
      rw [body_at, hrun]
      cases t with
      | nil => exact fun h => (hends '{' h).2 rfl rfl
      | cons d t =>
          intro h
          obtain rfl : d = '{' := by simpa using h
          exact absurd (hall '{' List.mem_cons_self) (by decide)
  | @interpolation _ r hc hr =>
      obtain ⟨rfl, rfl⟩ := List.cons.inj hs
      have hrun : interpolationRun (r ++ '}' :: u) = r := by
        rw [interpolationRun, takeWhile_append_cons rfl]
        exact hr
      have hcut : r ++ ['}'] ++ u = r ++ '}' :: u := by simp
      rw [List.cons_append, hcut, body_brace hc, hrun, closed, if_pos ⟨u, by simp⟩]
      rfl
  | word hne hr =>
      subst hs
      have hstop : ∀ d ∈ u.head?, isWordPart d = false ∧ d ≠ '\\' := fun d hd =>
        ⟨(hends d hd).1, (hends d hd).2.1⟩
      have hu : u ≠ ['\\'] := by
        rintro rfl
        exact (hstop '\\' rfl).2 rfl
      have hrun := (wordRun_append_eq_left hu).2 ⟨hr, hstop⟩
      rcases eq_or_ne c '\\' with rfl | hne
      · cases t with
        | nil => exact absurd hr (by decide)
        | cons d t =>
            simp only [wordRun, List.cons_append, List.cons.injEq, true_and] at hrun
            exact congrArg (fun t => (some TokenKind.word, d :: t)) hrun
      · rw [List.cons_append, wordRun_cons hne] at hrun
        split at hrun
        · next hc =>
            rw [body_word hc, (List.cons.inj hrun).2]
            rintro r l v hurl hv
            -- the word ends in front of the parenthesis, which goes on it
            obtain ⟨-, hletter₁, hletter₂⟩ := isUrlWord_iff.1 hurl
            have hr := isWordPart_of_sameLetter hletter₁ rfl
            have hl := isWordPart_of_sameLetter hletter₂ rfl
            have hword : wordRun (r :: l :: '(' :: v) = [r, l] := by
              rw [wordRun_cons_of_isWordPart hr, wordRun_cons_of_isWordPart hl,
                wordRun_cons (by decide)]
              rfl
            obtain rfl : [r, l] = t := by rw [← hword, ← hv, (List.cons.inj hrun).2]
            obtain rfl : u = '(' :: v := by simpa using hv
            exact (hends '(' rfl).2.2 rfl hurl
        · simp at hrun

/-- No shape is empty. -/
theorem Shape.ne_nil {kind : TokenKind} {t : Text} (h : Shape kind t) : t ≠ [] := by
  cases h with
  | space hne | word hne => exact hne
  | _ => exact List.cons_ne_nil _ _

/-! ### Tokens in front of a text -/

section

variable {lines lines' : LineMap} {offset : Nat} {kind : TokenKind} {k : Token}
  {ks us vs : List Token} {t u v w : Text}

/-- A text with the shape of a token is cut off in front of what does not go on it. -/
theorem tokenizeFrom_shape_append (ht : Shape kind t) (hu : ∀ c ∈ u.head?, Ends kind t c) :
    tokenizeFrom lines offset (t ++ u) =
      (tokenizeFrom lines (offset + Text.byteSize t) u).map (⟨kind, t, offset⟩ :: ·) := by
  cases t with
  | nil => exact absurd rfl ht.ne_nil
  | cons c t =>
      have hbody := body_of_shape ht hu
      have hcut : cut c (t ++ u) = c :: t := by rw [cut, hbody]
      have hrest : rest c (t ++ u) = u := by simp [rest, hbody]
      rw [List.cons_append, tokenizeFrom]
      split
      · next hnone => simp [hbody] at hnone
      · next kind' hkind =>
          obtain rfl : kind = kind' := by simpa [hbody] using hkind
          rw [hcut, hrest]

/-- **The tokens of a text, told one by one**: the first is cut off the text and has a shape, and
what is left has the other tokens and does not go on it. -/
theorem tokenizeFrom_eq_ok_cons :
    tokenizeFrom lines offset t = .ok (k :: ks) ↔
      ∃ u, t = k.text ++ u ∧ Shape k.kind k.text ∧ k.StopsAt u ∧ k.start = offset ∧
        tokenizeFrom lines (offset + Text.byteSize k.text) u = .ok ks := by
  constructor
  · intro h
    cases t with
    | nil => simp [tokenizeFrom] at h
    | cons c t =>
        rw [tokenizeFrom] at h
        split at h
        · contradiction
        · next kind hkind =>
            obtain ⟨us, hus, hk⟩ := map_eq_ok_iff.1 h
            obtain ⟨rfl, rfl⟩ := List.cons.inj hk
            have hne : rest c t ≠ ['\\'] := by
              intro hrest
              rw [hrest, tokenizeFrom] at hus
              cases hus
            have hcut : (body c t).2 ++ rest c t = t :=
              (List.cons.inj (cut_append_rest c t)).2
            have hbody : body c ((body c t).2 ++ rest c t) = (some kind, (body c t).2) := by
              rw [hcut]
              exact Prod.ext hkind rfl
            obtain ⟨hshape, hends⟩ := shape_of_body hne hbody
            exact ⟨rest c t, (cut_append_rest c t).symm, hshape, hends, rfl, hus⟩
  · rintro ⟨u, rfl, hshape, hends, rfl, hu⟩
    rw [tokenizeFrom_shape_append hshape hends, hu]
    rfl

/-- Every token stops at the end of the text. -/
theorem stopsAt_nil (k : Token) : k.StopsAt [] := by
  simp [StopsAt]

/-- A token stops in front of tokens and a text behind them if it stops in front of the tokens, and of
the text if there are none. -/
theorem stopsAt_texts_append (hus : tokenizeFrom lines offset (texts us) = .ok us) :
    k.StopsAt (texts us ++ v) ↔ k.StopsAt (texts us) ∧ (us = [] → k.StopsAt v) := by
  cases us with
  | nil => simp [stopsAt_nil]
  | cons l us =>
      obtain ⟨-, -, hl, -⟩ := tokenizeFrom_eq_ok_cons.1 hus
      obtain ⟨c, w, hw⟩ := List.exists_cons_of_ne_nil hl.ne_nil
      simp [StopsAt, hw]

/-- The last of some tokens stops in front of a text. -/
theorem forall_getLast?_cons :
    (∀ l ∈ (k :: us).getLast?, l.StopsAt v) ↔
      (us = [] → k.StopsAt v) ∧ ∀ l ∈ us.getLast?, l.StopsAt v := by
  cases us with
  | nil => simp
  | cons l us => simp [List.getLast?_cons_cons]

/-- **Tokens can be told apart from those behind them**: they are the tokens of their text, and the
others are those of the text behind, which does not go on the last of them. -/
theorem tokenizeFrom_eq_ok_append :
    tokenizeFrom lines offset t = .ok (us ++ vs) ↔
      ∃ v, t = texts us ++ v ∧ tokenizeFrom lines offset (texts us) = .ok us ∧
        (∀ k ∈ us.getLast?, k.StopsAt v) ∧
        tokenizeFrom lines (offset + Text.byteSize (texts us)) v = .ok vs := by
  induction us generalizing offset t with
  | nil => simp [tokenizeFrom]
  | cons k us ih =>
      simp only [forall_getLast?_cons, texts_cons, Text.byteSize_append, ← Nat.add_assoc]
      constructor
      · intro h
        obtain ⟨x, rfl, hshape, hstops, hk, hx⟩ := tokenizeFrom_eq_ok_cons.1 h
        obtain ⟨v, rfl, hus, hlast, hvs⟩ := ih.1 hx
        rw [stopsAt_texts_append hus] at hstops
        exact ⟨v, by simp, tokenizeFrom_eq_ok_cons.2 ⟨texts us, rfl, hshape, hstops.1, hk, hus⟩,
          ⟨hstops.2, hlast⟩, hvs⟩
      · rintro ⟨v, rfl, hus, hlast, hvs⟩
        obtain ⟨x, hx, hshape, hstops, hk, hus⟩ := tokenizeFrom_eq_ok_cons.1 hus
        obtain rfl : texts us = x := by simpa using hx
        exact tokenizeFrom_eq_ok_cons.2 ⟨texts us ++ v, by simp, hshape,
          (stopsAt_texts_append hus).2 ⟨hstops, hlast.1⟩, hk, ih.2 ⟨v, rfl, hus, hlast.2, hvs⟩⟩

/-- Every token of a text has the shape of one. -/
theorem shape_of_mem (h : tokenizeFrom lines offset t = .ok ks) (hk : k ∈ ks) :
    Shape k.kind k.text := by
  obtain ⟨us, vs, rfl⟩ := List.append_of_mem hk
  obtain ⟨v, -, -, -, hv⟩ := tokenizeFrom_eq_ok_append.1 h
  obtain ⟨-, -, hshape, -⟩ := tokenizeFrom_eq_ok_cons.1 hv
  exact hshape

/-- **The text behind tokens can be replaced** by one that does not go on the last of them. -/
theorem tokenizeFrom_append (h : tokenizeFrom lines offset u = .ok us)
    (hv : ∀ k ∈ us.getLast?, k.StopsAt v) :
    tokenizeFrom lines' offset (u ++ v) =
      (tokenizeFrom lines' (offset + Text.byteSize u) v).map (us ++ ·) := by
  induction us generalizing offset u with
  | nil =>
      obtain rfl : [] = u := texts_of_tokenizeFrom h
      change tokenizeFrom lines' offset v = Except.map id (tokenizeFrom lines' offset v)
      rw [Except.map_id]
      rfl
  | cons k us ih =>
      obtain ⟨x, rfl, hshape, hstops, rfl, hx⟩ := tokenizeFrom_eq_ok_cons.1 h
      obtain rfl : texts us = x := texts_of_tokenizeFrom hx
      rw [forall_getLast?_cons] at hv
      have hstops := (stopsAt_texts_append hx).2 ⟨hstops, hv.1⟩
      rw [List.append_assoc, tokenizeFrom_shape_append hshape hstops, ih hx hv.2, map_map,
        Text.byteSize_append, Nat.add_assoc]
      rfl

end

end Sheet.Token

end StyleBlocks
