import StyleBlocks.Proofs.Sheet.ApartTokens
import StyleBlocks.Proofs.Sheet.LeafForm

/-!
# Plain texts

A **name** is a word of letters, digits, underscores and hyphens, and a **phrase** is made of names with
single spaces between them. A name is one token, and a phrase is words with blanks between them, whatever
follows, as long as that does not go on a word. Neither ends a statement nor opens parentheses.

## Main results

* `IsPhrase.exists_words`: a phrase is the text of words with blanks between them.
* `exists_padded`: a text that may be empty has such words, too, with a space in front of them.
* `Padded.leaf_declaration`, `Padded.leaf_atStatement`, `Padded.isHead_atRule`, `Words.isHead_rule`: what
  such tokens are read as.
-/

namespace StyleBlocks.Sheet

open Token (texts)

namespace Token

/-- A single space. -/
def blank : Token :=
  ⟨.space, [' '], 0⟩

/-- A single space is blank. -/
theorem isSpace_of_mem_blank : ∀ k ∈ [blank], k.isSpace = true := by
  simp [blank, isSpace]

/-- A single space has the shape of a space token. -/
theorem shape_blank : Shape blank.kind blank.text :=
  .space (List.cons_ne_nil _ _) (by simp [blank, isStyleBlank])

/-- A colon. -/
def colon : Token :=
  ⟨.colon, [':'], 0⟩

/-- A semicolon. -/
def semicolon : Token :=
  ⟨.semicolon, [';'], 0⟩

/-- An opening brace. -/
def openBrace : Token :=
  ⟨.openCurly, ['{'], 0⟩

/-- A closing brace. -/
def closeBrace : Token :=
  ⟨.closeCurly, ['}'], 0⟩

/-- A name as a word. -/
def ofName (t : Text) : Token :=
  ⟨.word, t, 0⟩

/-- A name is a word. -/
@[simp] theorem kind_ofName (t : Text) : (ofName t).kind = .word := rfl

/-- A name as a token has its own text. -/
@[simp] theorem text_ofName (t : Text) : (ofName t).text = t := rfl

/-- The name of an at-rule. -/
def ofAtName (t : Text) : Token :=
  ⟨.atWord, '@' :: t, 0⟩

/-- The name of an at-rule is a word with an at sign. -/
@[simp] theorem kind_ofAtName (t : Text) : (ofAtName t).kind = .atWord := rfl

/-- A comment with the given text. -/
def ofComment (inline : Bool) (t : Text) : Token :=
  if inline then ⟨.lineComment, '/' :: '/' :: t, 0⟩
  else ⟨.comment, '/' :: '*' :: (t ++ ['*', '/']), 0⟩

end Token

open Token (blank colon semicolon openBrace closeBrace ofName ofAtName ofComment)

/-- A **name**: a word of letters, digits, underscores and hyphens. -/
def IsName (t : Text) : Prop :=
  t ≠ [] ∧ ∀ c ∈ t, Token.isAtWordPart c = true

instance (t : Text) : Decidable (IsName t) :=
  decidable_of_iff (t ≠ [] ∧ t.all Token.isAtWordPart = true) (by simp [IsName])

/-- A **phrase**: names with single spaces between them. -/
inductive IsPhrase : Text → Prop
  | name {t : Text} (ht : IsName t) : IsPhrase t
  | cons {w t : Text} (hw : IsName w) (ht : IsPhrase t) : IsPhrase (w ++ ' ' :: t)

/-! ### Words -/

/-- A character **stops words** if no word goes on with it. -/
def StopsWords (c : Char) : Prop :=
  Token.isWordPart c = false ∧ c ≠ '\\' ∧ c ≠ '('

instance (c : Char) : Decidable (StopsWords c) :=
  inferInstanceAs (Decidable (_ ∧ _))

/-- What names are made of can stand in words. -/
theorem isWordPart_of_isAtWordPart {c : Char} (h : Token.isAtWordPart c = true) :
    Token.isWordPart c = true := by
  by_contra hc
  simp only [Token.isWordPart, Token.isStyleBlank, Bool.not_eq_true', Bool.not_eq_false,
    Bool.or_eq_true, beq_iff_eq, List.contains_eq_mem, String.reduceToList, List.mem_cons,
    List.not_mem_nil, or_false, decide_eq_true_eq, or_assoc] at hc
  rcases hc with rfl | rfl | rfl | rfl | rfl | rfl | rfl | rfl | rfl | rfl | rfl | rfl | rfl | rfl |
    rfl | rfl | rfl | rfl | rfl <;> exact absurd h (by decide)

/-- Names have no blanks. -/
theorem isStyleBlank_of_isAtWordPart {c : Char} (h : Token.isAtWordPart c = true) :
    Token.isStyleBlank c = false := by
  have := isWordPart_of_isAtWordPart h
  simp only [Token.isWordPart, Bool.not_eq_true', Bool.or_eq_false_iff] at this
  exact this.1

/-- A name is one word up to its end. -/
theorem IsName.wordRun_eq {t : Text} (h : IsName t) : Token.wordRun t = t := by
  obtain ⟨-, h⟩ := h
  induction t with
  | nil => rfl
  | cons c t ih =>
      obtain ⟨hc, ht⟩ := List.forall_mem_cons.1 h
      rw [Token.wordRun_cons_of_isWordPart (isWordPart_of_isAtWordPart hc), ih ht]

/-- Tokens are **words** with blanks between them, and begin with a character of a name. -/
structure Words (ks : List Token) : Prop where
  head : ∀ c ∈ (texts ks).head?, Token.isAtWordPart c = true
  first : ∃ k us, ks = k :: us ∧ k.kind = .word
  last : ∃ us k, ks = us ++ [k] ∧ k.kind = .word
  kinds : ∀ k ∈ ks, k.kind = .word ∨ k.kind = .space
  apart : Token.Apart ks []

section

variable {g : Grammar} {t u w : Text} {k : Token} {ks us gap core : List Token} {depth : Nat}

/-- A word stops in front of a character that stops words. -/
theorem Token.stopsAt_of_word (hk : k.kind = .word) (hu : ∀ c ∈ u.head?, StopsWords c) :
    k.StopsAt u := by
  intro c hc
  obtain ⟨hpart, hslash, hparen⟩ := hu c hc
  simp only [Ends, hk]
  exact ⟨hpart, hslash, fun h => absurd h hparen⟩

/-- Words stay apart in front of a character that stops words. -/
theorem Words.apart_of_stops (h : Words ks) (hu : ∀ c ∈ u.head?, StopsWords c) :
    Token.Apart ks u := by
  refine h.apart.replace fun k hk => ?_
  obtain ⟨us, l, rfl, hl⟩ := h.last
  rw [List.getLast?_concat] at hk
  obtain rfl := Option.some.inj hk
  exact Token.stopsAt_of_word hl hu

/-- Words begin with no blank. -/
theorem Words.isStyleBlank_eq_false (h : Words (k :: us)) :
    ∀ c ∈ k.text.head?, Token.isStyleBlank c = false := fun c hc =>
  isStyleBlank_of_isAtWordPart (h.head c (by simp [List.head?_append, Option.mem_def.1 hc]))

/-- Words neither begin nor end with a blank. -/
theorem Words.solid (h : Words ks) : Solid ks := by
  obtain ⟨k, us, hfirst, hk⟩ := h.first
  obtain ⟨vs, l, hlast, hl⟩ := h.last
  exact ⟨⟨k, us, hfirst, by simp [Token.isSpace, hk]⟩, ⟨vs, l, hlast, by simp [Token.isSpace, hl]⟩⟩

/-- A name is one word. -/
theorem IsName.words (h : IsName t) : Words [ofName t] where
  head c hc := h.2 c (List.mem_of_head? (by simpa using hc))
  first := ⟨_, _, rfl, rfl⟩
  last := ⟨[], _, rfl, rfl⟩
  kinds := by simp
  apart := ⟨.word h.1 h.wordRun_eq, Token.stopsAt_nil _, trivial⟩

/-- **A phrase** is the text of words with blanks between them. -/
theorem IsPhrase.exists_words (h : IsPhrase t) : ∃ ks, texts ks = t ∧ Words ks := by
  induction h with
  | name ht => exact ⟨_, by simp, ht.words⟩
  | @cons w t hw ht ih =>
      obtain ⟨ks, rfl, hks⟩ := ih
      obtain ⟨us, l, rfl, hl⟩ := hks.last
      refine ⟨ofName w :: blank :: (us ++ [l]), by simp [blank], fun c hc => ?_,
        ⟨_, _, rfl, rfl⟩, ⟨ofName w :: blank :: us, l, rfl, hl⟩, ?_, .word hw.1 hw.wordRun_eq,
        ?_, Token.shape_blank, ?_, hks.apart⟩
      · obtain ⟨d, w, rfl⟩ := List.exists_cons_of_ne_nil hw.1
        exact hw.2 c (List.mem_of_head? (by simpa using hc))
      · intro k hk
        rcases List.mem_cons.1 hk with rfl | hk
        · exact Or.inl rfl
        rcases List.mem_cons.1 hk with rfl | hk
        · exact Or.inr rfl
        · exact hks.kinds k hk
      · refine Token.stopsAt_of_word rfl fun c hc => ?_
        obtain rfl : ' ' = c := by simpa [blank] using hc
        decide
      · intro c hc
        rw [List.append_nil] at hc
        exact isStyleBlank_of_isAtWordPart (hks.head c hc)

/-! ### Flat tokens -/

/-- A token is **flat** if it ends no statement and has nothing to do with parentheses. -/
def Token.IsFlat (k : Token) : Prop :=
  k.kind = .word ∨ k.kind = .space ∨ k.kind = .colon ∨ k.kind = .atWord

/-- A space is flat. -/
theorem Token.isFlat_blank : blank.IsFlat := Or.inr (Or.inl rfl)

/-- A colon is flat. -/
theorem Token.isFlat_colon : colon.IsFlat := Or.inr (Or.inr (Or.inl rfl))

/-- A name is flat. -/
theorem Token.isFlat_ofName (t : Text) : (ofName t).IsFlat := Or.inl rfl

/-- The name of an at-rule is flat. -/
theorem Token.isFlat_ofAtName (t : Text) : (ofAtName t).IsFlat := Or.inr (Or.inr (Or.inr rfl))

/-- A flat token does not end a statement. -/
theorem Token.IsFlat.endsStatement_eq (h : k.IsFlat) : k.endsStatement = false := by
  rcases h with h | h | h | h <;> simp [Token.endsStatement, h]

/-- A flat token leaves the depth as it is. -/
theorem Token.IsFlat.depthAfter_eq (h : k.IsFlat) : k.depthAfter depth = depth := by
  rcases h with h | h | h | h <;> simp [Token.depthAfter, h]

/-- Flat tokens do not change how many parentheses are open. -/
theorem depthAfterAll_of_isFlat (h : ∀ k ∈ ks, k.IsFlat) (depth : Nat) :
    depthAfterAll depth ks = depth := by
  induction ks with
  | nil => rfl
  | cons k ks ih =>
      obtain ⟨hk, hks⟩ := List.forall_mem_cons.1 h
      exact (congrArg (depthAfterAll · ks) hk.depthAfter_eq).trans (ih hks)

/-- Flat tokens end no statement. -/
theorem passes_of_isFlat (h : ∀ k ∈ ks, k.IsFlat) (depth : Nat) :
    Passes Token.endsStatement depth ks := by
  induction ks generalizing depth with
  | nil => trivial
  | cons k ks ih =>
      obtain ⟨hk, hks⟩ := List.forall_mem_cons.1 h
      exact ⟨fun hends => by simp [hk.endsStatement_eq] at hends, ih hks _⟩

/-- Words are flat. -/
theorem Words.isFlat (h : Words ks) : ∀ k ∈ ks, k.IsFlat := fun k hk =>
  (h.kinds k hk).imp id Or.inl

/-! ### Texts that may be empty -/

/-- The tokens `gap ++ core` are a text that may be empty, **padded** with a single space in front of its
words. If there are no words, there is no space either. -/
inductive Padded : Text → List Token → List Token → Prop
  | nil : Padded [] [] []
  | words {core : List Token} (h : Words core) : Padded (texts core) [blank] core

/-- **A phrase or nothing** is the text of padded tokens. -/
theorem exists_padded (h : t = [] ∨ IsPhrase t) : ∃ gap core, Padded t gap core := by
  rcases h with rfl | h
  · exact ⟨[], [], .nil⟩
  · obtain ⟨ks, rfl, hks⟩ := h.exists_words
    exact ⟨_, ks, .words hks⟩

/-- The words of a padded text are the text. -/
theorem Padded.texts_core (h : Padded t gap core) : texts core = t := by
  cases h <;> rfl

/-- There is text in words. -/
theorem Words.texts_ne_nil (h : Words ks) : texts ks ≠ [] := by
  obtain ⟨k, us, rfl, -⟩ := h.first
  have := (h.apart.hasForm List.mem_cons_self).ne_nil
  simp [this]

/-- A padded text has a space in front of it unless it is empty. -/
theorem Padded.texts_gap (h : Padded t gap core) :
    texts gap = if t.isEmpty then [] else [' '] := by
  cases h with
  | nil => rfl
  | words h =>
      rw [if_neg (by simpa using h.texts_ne_nil)]
      rfl

/-- What stands in front of a padded text is blank. -/
theorem Padded.isSpace_of_mem (h : Padded t gap core) : ∀ k ∈ gap, k.isSpace = true := by
  cases h with
  | nil => simp
  | words h => exact Token.isSpace_of_mem_blank

/-- The tokens of a padded text are flat. -/
theorem Padded.isFlat (h : Padded t gap core) : ∀ k ∈ gap ++ core, k.IsFlat := by
  cases h with
  | nil => simp
  | words h =>
      intro k hk
      rcases List.mem_cons.1 hk with rfl | hk
      · exact Token.isFlat_blank
      · exact h.isFlat k hk

/-- The tokens of an at-rule without a block are flat. -/
theorem Padded.isFlat_atStatement (h : Padded t gap core) (name : Text) :
    ∀ k ∈ ofAtName name :: (gap ++ core), k.IsFlat :=
  List.forall_mem_cons.2 ⟨Token.isFlat_ofAtName name, h.isFlat⟩

/-- The tokens of a declaration are flat. -/
theorem Padded.isFlat_declaration (h : Padded t gap core) (prop : Text) :
    ∀ k ∈ ofName prop :: colon :: (gap ++ core), k.IsFlat :=
  List.forall_mem_cons.2
    ⟨Token.isFlat_ofName prop, List.forall_mem_cons.2 ⟨Token.isFlat_colon, h.isFlat⟩⟩

/-- Trimming blanks off padded tokens leaves their words. -/
theorem Padded.trimBlanks_eq (h : Padded t gap core) {back : List Token}
    (hback : ∀ k ∈ back, k.isSpace = true) : trimBlanks (gap ++ core ++ back) = ⟨gap, core, back⟩ := by
  have hgap := h.isSpace_of_mem
  cases h with
  | nil => exact trimBlanks_append_spaces (Or.inl rfl) hback
  | words h => exact trimBlanks_of_solid h.solid hgap hback

/-- Without the blanks in front, the tokens of a padded text are its words. -/
theorem Padded.dropWhile_eq (h : Padded t gap core) : (gap ++ core).dropWhile Token.isSpace = core := by
  cases h with
  | nil => rfl
  | words h =>
      obtain ⟨k, us, rfl, hk⟩ := h.first
      simp [blank, Token.isSpace, hk]

/-- Behind a token that is not blank, padded tokens end in no blank. -/
theorem Padded.endsSolid (h : Padded t gap core) (us : List Token) (hk : k.isSpace = false) :
    Token.EndsSolid (us ++ k :: (gap ++ core)) := by
  cases h with
  | nil => exact ⟨us, k, rfl, hk⟩
  | words h =>
      rw [List.append_cons, ← List.append_assoc]
      exact h.solid.last.append _

/-- Padded tokens stand apart from what stops words, and keep it apart from words in front of them. -/
theorem Padded.apart (h : Padded t gap core) (hu : ∀ c ∈ u.head?, StopsWords c) :
    Token.Apart (gap ++ core) u ∧ ∀ c ∈ (texts (gap ++ core) ++ u).head?, StopsWords c := by
  cases h with
  | nil => exact ⟨trivial, hu⟩
  | words h =>
      refine ⟨⟨Token.shape_blank, ?_, h.apart_of_stops hu⟩, ?_⟩
      · intro c hc
        change c ∈ (texts core ++ u).head? at hc
        rw [List.head?_append_of_ne_nil _ h.texts_ne_nil] at hc
        exact isStyleBlank_of_isAtWordPart (h.head c hc)
      · intro c hc
        obtain rfl : ' ' = c := by simpa [blank] using hc
        decide

/-- Behind a colon there is a space in any case, in front of the words or alone. -/
theorem Padded.exists_back (h : Padded t gap core) :
    ∃ back, (∀ k ∈ back, k.isSpace = true) ∧ texts (gap ++ core ++ back) = ' ' :: t ∧
      Token.Apart (gap ++ core ++ back) [';'] := by
  cases h with
  | nil =>
      refine ⟨[blank], Token.isSpace_of_mem_blank, rfl,
        Token.shape_blank, fun c hc => ?_, trivial⟩
      obtain rfl : ';' = c := by simpa using hc
      rfl
  | words h =>
      refine ⟨[], by simp, by simp [blank], ?_⟩
      rw [List.append_nil]
      refine ((Padded.words h).apart fun c hc => ?_).1
      obtain rfl : ';' = c := by simpa using hc
      decide

/-! ### Seams -/

/-- A semicolon stays apart from the end of the text. -/
theorem apart_semicolon : Token.Apart [semicolon] [] :=
  ⟨.mark (by decide), Token.stopsAt_nil _, trivial⟩

/-- A space and a brace stand apart, and keep themselves apart from words. -/
theorem apart_openBrace :
    Token.Apart [blank, openBrace] [] ∧ ∀ c ∈ (texts [blank, openBrace]).head?, StopsWords c := by
  refine ⟨⟨Token.shape_blank, fun c hc => ?_, .mark (by decide),
    Token.stopsAt_nil _, trivial⟩, fun c hc => ?_⟩
  · obtain rfl : '{' = c := by simpa [openBrace] using hc
    rfl
  · obtain rfl : ' ' = c := by simpa [blank] using hc
    decide

/-- The name of an at-rule stops in front of a character that stops words. -/
theorem stopsAt_ofAtName (ht : IsName t) (hu : ∀ c ∈ u.head?, StopsWords c) :
    (ofAtName t).StopsAt u := by
  intro c hc
  refine ⟨?_, fun hempty => absurd (List.cons.inj hempty).2 ht.1⟩
  by_contra hpart
  have := isWordPart_of_isAtWordPart (Bool.not_eq_false _ ▸ hpart)
  simp [(hu c hc).1] at this

/-- The name of an at-rule stands apart from its parameters, and these from what stops words. -/
theorem Padded.apart_ofAtName {name : Text} (h : Padded t gap core) (hname : IsName name)
    (hus : Token.Apart us []) (hu : ∀ c ∈ (texts us).head?, StopsWords c) :
    Token.Apart (ofAtName name :: (gap ++ core) ++ us) [] := by
  have := h.apart (u := texts us) hu
  refine ⟨.atWord hname.2, ?_, Token.apart_append.2 ⟨by simpa using this.1, hus⟩⟩
  exact stopsAt_ofAtName hname (by simpa using this.2)

/-- The property of a declaration stands apart from its colon. -/
theorem apart_ofName_colon {prop : Text} (hprop : IsName prop) (hus : Token.Apart us []) :
    Token.Apart (ofName prop :: colon :: us) [] := by
  refine ⟨.word hprop.1 hprop.wordRun_eq, Token.stopsAt_of_word rfl fun c hc => ?_,
    .mark (by decide), fun _ _ => trivial, hus⟩
  obtain rfl : ':' = c := by simpa [colon] using hc
  decide

/-! ### Statements -/

/-- A flat token that is no space begins a statement. -/
theorem begins_of_isFlat (hk : k.IsFlat) (hspace : k.kind ≠ .space) : k.Begins g := by
  refine ⟨⟨hspace, ?_⟩, ?_, ?_, ?_⟩ <;> rcases hk with h | h | h | h <;> simp [h]

/-- An at-rule without a block. -/
theorem Padded.leaf_atStatement {name : Text} {n : Node} (h : Padded t gap core)
    (hn : n.bare = .atStatement { name := name, params := t }) :
    Leaf g (ofAtName name) (gap ++ core) n where
  begins := begins_of_isFlat (Token.isFlat_ofAtName name) (by simp)
  passes := passes_of_isFlat (h.isFlat_atStatement name) 0
  solid := h.endsSolid [] rfl
  meaning := by simp [leafOf?, ofAtName, h.dropWhile_eq, h.texts_core, hn]

/-- A declaration. -/
theorem Padded.leaf_declaration {prop : Text} {n : Node} (h : Padded t gap core)
    (hn : n.bare = .declaration { prop := prop, value := t }) :
    Leaf g (ofName prop) (colon :: (gap ++ core)) n where
  begins := begins_of_isFlat (Token.isFlat_ofName prop) (by simp)
  passes := passes_of_isFlat (h.isFlat_declaration prop) 0
  solid := h.endsSolid [_] rfl
  meaning := by
    have hcut : cutOutside (fun u => u.kind = .colon) 0 (ofName prop :: colon :: (gap ++ core)) =
        ([ofName prop], colon :: (gap ++ core)) := by
      simp [cutOutside, colon, Token.depthAfter]
    simp [leafOf?, hcut, h.dropWhile_eq, h.texts_core, hn, cutBlanks, Token.isSpace]

/-- Flat tokens in front of a brace are the head of a block. -/
theorem isHead_of_isFlat {head : Head} (hspace : k.kind ≠ .space) (hflat : ∀ l ∈ k :: us, l.IsFlat)
    (hhead : ∀ before, (headOf before k (k :: us)).bare = head.bare) :
    IsHead g k (us ++ [openBrace]) head where
  begins := begins_of_isFlat (hflat k List.mem_cons_self) hspace
  endsOpen := ⟨k :: us, openBrace, rfl, rfl⟩
  readStatement_eq lines before rest := by
    have hcut : cutOutside Token.endsStatement 0 (k :: (us ++ [openBrace] ++ rest)) =
        (k :: us, openBrace :: rest) := by
      refine cutOutside_eq_iff.2 ⟨by simp, passes_of_isFlat hflat 0, fun l hl => ?_⟩
      obtain rfl : openBrace = l := by simpa using hl
      exact ⟨depthAfterAll_of_isFlat hflat 0, rfl⟩
    exact ⟨_, _, _, readStatement_brace (begins_of_isFlat (hflat k List.mem_cons_self) hspace) hcut rfl,
      hhead before⟩

/-- The head of a rule. -/
theorem Words.isHead_rule {head : RuleHead} (h : Words (k :: us)) (hk : k.kind = .word)
    (hselector : head.selector = texts (k :: us)) (hmixin : head.mixin = false) :
    IsHead g k (us ++ [blank, openBrace]) (.rule head) := by
  rw [List.append_cons]
  refine isHead_of_isFlat (by simp [hk]) ?_ fun before => ?_
  · intro l hl
    rcases List.mem_append.1 (List.cons_append ▸ hl) with hl | hl
    · exact h.isFlat l hl
    · exact List.mem_singleton.1 hl ▸ Token.isFlat_blank
  · have hcut : cutBlanks (k :: (us ++ [blank])) = (k :: us, [blank]) :=
      cutBlanks_append_spaces h.solid.last Token.isSpace_of_mem_blank
    rw [headOf, if_neg (by simp [hk])]
    simp only [Head.bare, hcut, hselector, hmixin]

/-- The head of an at-rule with a block. -/
theorem Padded.isHead_atRule {head : AtRuleHead} (h : Padded t gap core) (hparams : head.params = t) :
    IsHead g (ofAtName head.name) (gap ++ core ++ [blank, openBrace]) (.atRule head) := by
  rw [List.append_cons]
  refine isHead_of_isFlat (by simp) ?_ fun before => ?_
  · intro l hl
    rcases List.mem_append.1 (List.cons_append ▸ hl) with hl | hl
    · exact h.isFlat_atStatement head.name l hl
    · exact List.mem_singleton.1 hl ▸ Token.isFlat_blank
  · have htrim := h.trimBlanks_eq Token.isSpace_of_mem_blank
    rw [headOf, if_pos (Token.kind_ofAtName head.name), List.tail_cons]
    simp only [Head.bare, htrim, h.texts_core, hparams]
    rfl

/-! ### Comments -/

/-- A block comment ends behind its text if that holds no mark of its end. -/
theorem commentRun_append_close (ht : ¬ ['*', '/'] <:+: t) :
    Text.commentRun (t ++ ['*', '/']) = some (t ++ ['*', '/']) := by
  induction t with
  | nil => rfl
  | cons c t ih =>
      have ih := ih fun h => ht (h.trans (List.suffix_cons c t).isInfix)
      have hcons : Text.commentRun (c :: (t ++ ['*', '/'])) =
          (Text.commentRun (t ++ ['*', '/'])).map (c :: ·) := by
        rw [Text.commentRun]
        rintro u rfl hu
        cases t with
        | nil => simp at hu
        | cons d t =>
            obtain rfl : d = '/' := (List.cons.inj hu).1
            exact ht (List.prefix_append ['*', '/'] t).isInfix
      rw [List.cons_append, hcons, ih]
      rfl

/-- **A comment** is one token, and is read as what it says. -/
theorem commentOf?_ofComment {n : Node} {inline : Bool} (hg : g.inlineComments = true)
    (hn : n.bare = .comment { text := t, inline := inline }) :
    commentOf? g (ofComment inline t) = some n.bare := by
  cases inline with
  | true => simp [commentOf?, ofComment, hg, hn, List.take_of_length_le]
  | false => simp [commentOf?, ofComment, hn]

/-- A comment stays apart from the end of the text if its text does not hold what would end it. -/
theorem apart_ofComment {inline : Bool}
    (ht : if inline then '\n' ∉ t else ¬ ['*', '/'] <:+: t) :
    Token.Apart [ofComment inline t] [] := by
  refine ⟨?_, Token.stopsAt_nil _, trivial⟩
  cases inline with
  | true => exact .lineComment (by simpa using ht)
  | false => exact .comment (commentRun_append_close (by simpa using ht))

end

end StyleBlocks.Sheet
