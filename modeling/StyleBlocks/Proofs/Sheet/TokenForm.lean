import StyleBlocks.Proofs.Sheet.TokenSeams
import StyleBlocks.Sheet.Statement

/-!
# The forms of tokens

A token's kind tells what its text looks like: braces, colons and semicolons are one character,
comments stand between their marks, and so on. The tokens of a text stand one behind the other: each
starts where the one before it stops.

## Main results

* `Token.hasForm_of_mem`: every token of a text has the form of its kind.
* `Token.tiled_of_tokenize`: the tokens of a text stand one behind the other.
-/

namespace StyleBlocks.Sheet

namespace Token

/-- A line feed at the end of a text is escaped by a backslash in front of it. -/
def EscapesBreak (t : Text) : Prop :=
  t.getLast? = some '\n' → ['\\', '\n'] <:+ t

/-- A text that does not end with a line feed has none there to escape. -/
theorem escapesBreak_append {c : Char} (hc : c ≠ '\n') (t : Text) : EscapesBreak (t ++ [c]) :=
  fun h => absurd (by simpa using h) hc

/-- A character in front that is no line feed leaves the line feed at the end escaped. -/
theorem EscapesBreak.cons {c : Char} {t : Text} (h : EscapesBreak t) (hc : c ≠ '\n') :
    EscapesBreak (c :: t) := by
  intro hlast
  cases t with
  | nil => exact absurd (by simpa using hlast) hc
  | cons d t => exact (h (by simpa using hlast)).trans (List.suffix_cons c _)

/-- An escape pair in front leaves the line feed at the end escaped. -/
theorem EscapesBreak.pair {t : Text} (h : EscapesBreak t) (c : Char) :
    EscapesBreak ('\\' :: c :: t) := by
  intro hlast
  cases t with
  | nil =>
      have hc : c = '\n' := by simpa using hlast
      exact hc ▸ List.suffix_refl _
  | cons d t => exact (h (by simpa using hlast)).trans (List.suffix_append ['\\', c] _)

/-- A line feed at the end of a word is escaped. -/
theorem escapesBreak_wordRun (t : Text) : EscapesBreak (wordRun t) := by
  fun_induction wordRun t with
  | case1 => simp [EscapesBreak]
  | case2 c t ih => exact ih.pair c
  | case3 c t _ hc ih =>
      refine ih.cons ?_
      rintro rfl
      simp [isWordPart, isStyleBlank] at hc
  | case4 => simp [EscapesBreak]

/-- The **form** of a token: what its kind tells about its text. -/
def HasForm (t : Token) : Prop :=
  match t.kind with
  | .space => t.text ≠ [] ∧ ∀ c ∈ t.text, isStyleBlank c = true
  | .comment => ∃ inner, t.text = '/' :: '*' :: (inner ++ ['*', '/'])
  | .lineComment => ∃ inner, t.text = '/' :: '/' :: inner ∧ '\n' ∉ inner
  | .openCurly => t.text = ['{']
  | .closeCurly => t.text = ['}']
  | .semicolon => t.text = [';']
  | .colon => t.text = [':']
  | .atWord => ∃ name, t.text = '@' :: name ∧ '\n' ∉ name
  | _ => t.text ≠ [] ∧ EscapesBreak t.text

/-- A blank token is a space. -/
theorem kind_of_isSpace {t : Token} (h : t.isSpace = true) : t.kind = .space := by
  simpa [isSpace] using h

/-- No token is empty. -/
theorem HasForm.ne_nil {t : Token} (h : t.HasForm) : t.text ≠ [] := by
  rw [HasForm] at h
  split at h
  case h_2 | h_3 | h_8 =>
    obtain ⟨_, h⟩ := h
    simp [h]
  all_goals simp_all

/-- An opening brace has its one text. -/
theorem HasForm.text_openCurly {t : Token} (h : t.HasForm) (hk : t.kind = .openCurly) :
    t.text = ['{'] := by
  simpa [HasForm, hk] using h

/-- A closing brace has its one text. -/
theorem HasForm.text_closeCurly {t : Token} (h : t.HasForm) (hk : t.kind = .closeCurly) :
    t.text = ['}'] := by
  simpa [HasForm, hk] using h

/-- A semicolon has its one text. -/
theorem HasForm.text_semicolon {t : Token} (h : t.HasForm) (hk : t.kind = .semicolon) :
    t.text = [';'] := by
  simpa [HasForm, hk] using h

/-- A token other than blanks ends in a line feed only if that is escaped. -/
theorem HasForm.escapesBreak {t : Token} (h : t.HasForm) (ht : t.isSpace = false) :
    EscapesBreak t.text := by
  rw [HasForm] at h
  split at h
  case h_1 hk => simp [isSpace, hk] at ht
  case h_2 =>
    obtain ⟨inner, h⟩ := h
    rw [h]
    simpa using escapesBreak_append (c := '/') (by decide) ('/' :: '*' :: (inner ++ ['*']))
  case h_3 | h_8 =>
    obtain ⟨inner, h, hn⟩ := h
    refine fun hlast => absurd (List.mem_of_getLast? hlast) ?_
    simp [h, hn]
  case h_9 => exact h.2
  all_goals simp [EscapesBreak, h]

/-- What goes on a comment ends with what closes it. -/
theorem commentRun_eq_append {t r : Text} (h : Text.commentRun t = some r) :
    ∃ inner, r = inner ++ ['*', '/'] := by
  fun_induction Text.commentRun t generalizing r with
  | case1 => simp at h
  | case2 t => exact ⟨[], (Option.some.inj h).symm⟩
  | case3 c t _ ih =>
      obtain ⟨u, hu, rfl⟩ := Option.map_eq_some_iff.1 h
      obtain ⟨inner, rfl⟩ := ih hu
      exact ⟨c :: inner, rfl⟩

/-- A text with the shape of a token has the form of its kind. -/
theorem Shape.hasForm {kind : TokenKind} {t : Text} (h : Shape kind t) (offset : Nat) :
    HasForm ⟨kind, t, offset⟩ := by
  cases h with
  | space hne ht => exact ⟨hne, ht⟩
  | comment ht =>
      obtain ⟨inner, rfl⟩ := commentRun_eq_append ht
      exact ⟨inner, rfl⟩
  | lineComment ht => exact ⟨_, rfl, ht⟩
  | @string q t hq =>
      have hne : q ≠ '\n' := by rcases hq with rfl | rfl <;> decide
      exact ⟨List.cons_ne_nil _ _, escapesBreak_append hne (q :: t)⟩
  | @url u r l t =>
      exact ⟨List.cons_ne_nil _ _, escapesBreak_append (by decide) (u :: r :: l :: '(' :: t)⟩
  | @interpolation c t =>
      exact ⟨List.cons_ne_nil _ _, escapesBreak_append (by decide) (c :: '{' :: t)⟩
  | atWord ht => exact ⟨_, rfl, fun hn => by simpa [isAtWordPart] using ht _ hn⟩
  | word hne ht => exact ⟨hne, ht ▸ escapesBreak_wordRun _⟩
  | slash | hash => simp [HasForm, EscapesBreak]
  | mark h =>
      simp only [marks, List.mem_cons, Prod.mk.injEq, List.not_mem_nil, or_false] at h
      rcases h with ⟨rfl, rfl⟩ | ⟨rfl, rfl⟩ | ⟨rfl, rfl⟩ | ⟨rfl, rfl⟩ | ⟨rfl, rfl⟩ | ⟨rfl, rfl⟩ |
        ⟨rfl, rfl⟩ | ⟨rfl, rfl⟩
      all_goals simp [HasForm, EscapesBreak]

/-! ### Token lists -/

/-- The last of some tokens is not blank. -/
def EndsSolid (ts : List Token) : Prop :=
  ∃ us u, ts = us ++ [u] ∧ u.isSpace = false

/-- Tokens that end with one that is no space end solid. -/
theorem EndsSolid.of_ending {u : Token} {kind : TokenKind} (hu : u.kind = kind) (hk : kind ≠ .space)
    (us : List Token) : EndsSolid (us ++ [u]) :=
  ⟨us, u, rfl, by simpa [isSpace, hu] using hk⟩

/-- Tokens that end solid are not empty. -/
theorem EndsSolid.ne_nil {ts : List Token} (h : EndsSolid ts) : ts ≠ [] := by
  obtain ⟨us, u, rfl, -⟩ := h
  simp

/-- Tokens end solid if those at their end do. -/
theorem EndsSolid.append {us : List Token} (h : EndsSolid us) (ts : List Token) :
    EndsSolid (ts ++ us) := by
  obtain ⟨vs, v, rfl, hv⟩ := h
  exact ⟨ts ++ vs, v, by simp, hv⟩

/-- Tokens of which the last is not blank end in a line feed only if that is escaped. -/
theorem EndsSolid.escapesBreak {ts : List Token} (h : EndsSolid ts) (hform : ∀ k ∈ ts, k.HasForm) :
    EscapesBreak (texts ts) := by
  obtain ⟨us, u, rfl, hu⟩ := h
  have hu := (hform u (by simp)).escapesBreak hu
  have hne := (hform u (by simp)).ne_nil
  intro hlast
  rw [texts_append, texts_cons, texts_nil, List.append_nil] at hlast ⊢
  rw [List.getLast?_append, Option.or_of_isSome (by simp [hne])] at hlast
  exact (hu hlast).trans (List.suffix_append _ _)

/-- Tokens stand one behind the other from an offset on. -/
def Tiled : Nat → List Token → Prop
  | _, [] => True
  | offset, t :: ts => t.start = offset ∧ Tiled (offset + Text.byteSize t.text) ts

@[simp] theorem tiled_nil (offset : Nat) : Tiled offset [] := trivial

@[simp] theorem tiled_cons (offset : Nat) (t : Token) (ts : List Token) :
    Tiled offset (t :: ts) ↔ t.start = offset ∧ Tiled (offset + Text.byteSize t.text) ts :=
  Iff.rfl

/-- Tokens that stand one behind the other can be cut. -/
@[simp] theorem tiled_append (offset : Nat) (ts us : List Token) :
    Tiled offset (ts ++ us) ↔ Tiled offset ts ∧ Tiled (offset + Text.byteSize (texts ts)) us := by
  induction ts generalizing offset with
  | nil => simp
  | cons t ts ih => simp [ih, and_assoc, Nat.add_assoc]

/-- Tokens that are read stand one behind the other, each with the form of its kind. -/
theorem tokenizeFrom_spec {lines : LineMap} {offset : Nat} {t : Text} {ts : List Token}
    (h : tokenizeFrom lines offset t = .ok ts) : Tiled offset ts ∧ ∀ k ∈ ts, k.HasForm := by
  induction ts generalizing offset t with
  | nil => simp
  | cons k ts ih =>
      obtain ⟨u, -, hshape, -, rfl, hu⟩ := tokenizeFrom_eq_ok_cons.1 h
      obtain ⟨htiled, hform⟩ := ih hu
      exact ⟨⟨rfl, htiled⟩, List.forall_mem_cons.2 ⟨hshape.hasForm k.start, hform⟩⟩

/-- Every token of a text has the form of its kind. -/
theorem hasForm_of_mem {t : Text} {ts : List Token} (h : tokenize t = .ok ts) {k : Token}
    (hk : k ∈ ts) : k.HasForm :=
  (tokenizeFrom_spec h).2 k hk

/-- The tokens of a text stand one behind the other. -/
theorem tiled_of_tokenize {t : Text} {ts : List Token} (h : tokenize t = .ok ts) : Tiled 0 ts :=
  (tokenizeFrom_spec h).1

end Token

end StyleBlocks.Sheet
