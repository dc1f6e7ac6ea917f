import StyleBlocks.Proofs.Sheet.DeclarationValue
import StyleBlocks.Proofs.Sheet.Unplaced

/-!
# Tokens that stand apart

Tokens can be put beside each other that have never been cut from one text. They are the tokens of
their text, put together, if each has the shape of a token and none is gone on by what follows it.
That can be told at the seams: what follows a token matters with its first character only.

## Main results

* `Token.apart_append`, `Token.Apart.replace`: tokens stand apart if they do on both sides of a
  seam, and the last of those in front of it stops there.
* `Token.Apart.exists_tokenizeFrom`: tokens that stand apart are the tokens of their text.
* `Token.exists_apart_pending`: blanks and semicolons are the text of some tokens.
-/

namespace StyleBlocks.Sheet

open Token (texts)

namespace Token

/-- Tokens **stand apart** in front of a text: each has the shape of a token, and what follows does
not go on it. -/
def Apart : List Token → Text → Prop
  | [], _ => True
  | k :: ks, t => Shape k.kind k.text ∧ k.StopsAt (texts ks ++ t) ∧ Apart ks t

variable {k : Token} {ks us vs : List Token} {t u : Text} {lines : LineMap} {offset : Nat}

/-- Whether a token stops is told by what follows it first. -/
theorem StopsAt.append {w : Text} (h : k.StopsAt (w ++ t)) (hw : w ≠ []) (u : Text) :
    k.StopsAt (w ++ u) := by
  obtain ⟨c, w, rfl⟩ := List.exists_cons_of_ne_nil hw
  exact h

/-- Tokens stay apart just if those in front do, with the text of those behind, and those behind
do. -/
theorem apart_append :
    Apart (us ++ vs) t ↔ Apart us (texts vs ++ t) ∧ Apart vs t := by
  induction us with
  | nil => simp [Apart]
  | cons k us ih => simp [Apart, ih, and_assoc]

/-- Tokens that stay apart have the form of their kinds. -/
theorem Apart.hasForm (h : Apart ks t) (hk : k ∈ ks) : k.HasForm := by
  obtain ⟨us, vs, rfl⟩ := List.append_of_mem hk
  exact (apart_append.1 h).2.1.hasForm k.start

/-- Nothing but the last of some tokens meets the text behind them. -/
theorem Apart.replace (h : Apart ks t) (hu : ∀ k ∈ ks.getLast?, k.StopsAt u) : Apart ks u := by
  induction ks with
  | nil => trivial
  | cons k ks ih =>
      obtain ⟨hshape, hstops, hks⟩ := h
      rw [forall_getLast?_cons] at hu
      refine ⟨hshape, ?_, ih hks hu.2⟩
      cases ks with
      | nil => simpa using hu.1 rfl
      | cons l ks => exact StopsAt.append hstops (by simp [hks.1.ne_nil]) u

/-- The last of tokens that stand apart stops in front of the text behind them. -/
theorem Apart.stopsAt (h : Apart ks t) (hk : k ∈ ks.getLast?) : k.StopsAt t := by
  obtain ⟨us, rfl⟩ := List.getLast?_eq_some_iff.1 hk
  simpa using (apart_append.1 h).2.2.1

/-- The tokens of a text stand apart. -/
theorem apart_of_tokenizeFrom (h : tokenizeFrom lines offset t = .ok ks) : Apart ks [] := by
  induction ks generalizing offset t with
  | nil => trivial
  | cons k ks ih =>
      obtain ⟨u, rfl, hshape, hstops, -, hu⟩ := tokenizeFrom_eq_ok_cons.1 h
      obtain rfl : texts ks = u := texts_of_tokenizeFrom hu
      exact ⟨hshape, by simpa using hstops, ih hu⟩

/-- **Tokens that stand apart** in front of a text are cut off it, but for their places. -/
theorem Apart.exists_tokenizeFrom (h : Apart ks t) (lines : LineMap) (offset : Nat) :
    ∃ us, us.map unplaced = ks.map unplaced ∧ tokenizeFrom lines offset (texts ks ++ t) =
      (tokenizeFrom lines (offset + Text.byteSize (texts ks)) t).map (us ++ ·) := by
  induction ks generalizing offset with
  | nil =>
      refine ⟨[], rfl, ?_⟩
      change tokenizeFrom lines offset t = Except.map id (tokenizeFrom lines offset t)
      rw [Except.map_id]
      rfl
  | cons k ks ih =>
      obtain ⟨hshape, hstops, hks⟩ := h
      obtain ⟨us, hunplaced, hus⟩ := ih hks (offset + Text.byteSize k.text)
      refine ⟨⟨k.kind, k.text, offset⟩ :: us, by simp [unplaced, hunplaced], ?_⟩
      rw [texts_cons, List.append_assoc, tokenizeFrom_shape_append hshape hstops, hus, map_map,
        Text.byteSize_append, Nat.add_assoc]
      rfl

/-- A token that is not blank and stops at a semicolon stops at the end of a block and at blanks,
too. -/
theorem StopsAt.of_semicolon (hk : k.isSpace = false) (h : k.StopsAt (';' :: t))
    (hu : ∀ c ∈ u.head?, (isStyleBlank c = true ∨ c = ';') ∨ c = '}') : k.StopsAt u := by
  intro c hc
  have hends : Ends k.kind k.text ';' := h ';' rfl
  have hword : isWordPart c = false ∧ isAtWordPart c = false ∧
      c ≠ '\\' ∧ c ≠ '(' ∧ c ≠ '{' ∧ c ≠ '*' ∧ c ≠ '/' := by
    have := hu c hc
    simp only [isStyleBlank, Bool.or_eq_true, beq_iff_eq, or_assoc] at this
    rcases this with rfl | rfl | rfl | rfl | rfl | rfl | rfl <;> decide
  obtain ⟨hpart, hat, hslash, hparen, hbrace, hstar, hline⟩ := hword
  unfold Ends at hends ⊢
  split at hends
  case h_1 hkind => simp [isSpace, hkind] at hk
  case h_2 => simp at hends
  case h_3 => exact ⟨hpart, hslash, fun h => absurd h hparen⟩
  case h_4 => exact ⟨hat, fun _ => hbrace⟩
  case h_5 => exact ⟨fun _ => ⟨hstar, hline⟩, fun _ => hbrace⟩
  case h_6 => trivial

/-- A space token is blank. -/
theorem HasForm.blanks (h : k.HasForm) (hk : k.kind = .space) :
    ∀ c ∈ k.text, isStyleBlank c = true := by
  rw [HasForm, hk] at h
  exact h.2

/-- A semicolon among blanks and stray semicolons is a token. -/
theorem exists_semicolon_of_mem (hks : ∀ k ∈ ks, Parse.isPending k = true)
    (hform : ∀ k ∈ ks, k.HasForm) (h : ';' ∈ texts ks) : ∃ k ∈ ks, k.kind = .semicolon := by
  obtain ⟨k, hk, hmem⟩ := List.mem_flatMap.1 h
  refine ⟨k, hk, (Parse.kind_of_isPending (hks k hk)).resolve_left fun hspace => ?_⟩
  exact absurd ((hform k hk).blanks hspace _ hmem) (by decide)

/-- Blanks and stray semicolons are the text of tokens that stand apart in front of what is not
blank. -/
theorem exists_apart_pending (ht : ∀ c ∈ t, isStyleBlank c = true ∨ c = ';')
    (hu : ∀ c ∈ u.head?, isStyleBlank c = false) :
    ∃ ks, texts ks = t ∧ (∀ k ∈ ks, Parse.isPending k = true) ∧ Apart ks u := by
  induction t with
  | nil => exact ⟨[], rfl, by simp, trivial⟩
  | cons c t ih =>
      obtain ⟨hc, ht⟩ := List.forall_mem_cons.1 ht
      obtain ⟨ks, rfl, hks, hapart⟩ := ih ht
      rcases hc with hc | rfl
      · -- A blank joins the blanks behind it.
        have hspace : ∀ w : Text, (∀ d ∈ w, isStyleBlank d = true) → Shape .space (c :: w) :=
          fun w hw => .space (List.cons_ne_nil _ _) (List.forall_mem_cons.2 ⟨hc, hw⟩)
        rcases ks with _ | ⟨k, ks⟩
        · exact ⟨[⟨.space, [c], 0⟩], rfl, by simp [Parse.isPending], hspace [] (by simp),
            by simpa [StopsAt, Ends] using hu, trivial⟩
        · obtain ⟨hk, hks⟩ := List.forall_mem_cons.1 hks
          obtain ⟨hshape, hstops, hapart⟩ := hapart
          have hform : k.HasForm := hshape.hasForm k.start
          by_cases hkind : k.kind = .space
          · have hw : ∀ d ∈ k.text, isStyleBlank d = true := hform.blanks hkind
            refine ⟨⟨.space, c :: k.text, 0⟩ :: ks, rfl, ?_, hspace _ hw, ?_, hapart⟩
            · exact List.forall_mem_cons.2 ⟨by simp [Parse.isPending], hks⟩
            · simpa [StopsAt, Ends, hkind] using hstops
          · have hsemicolon := (Parse.kind_of_isPending hk).resolve_left hkind
            have htext : k.text = [';'] := hform.text_semicolon hsemicolon
            refine ⟨⟨.space, [c], 0⟩ :: k :: ks, rfl, ?_, hspace [] (by simp), ?_, hshape, hstops,
              hapart⟩
            · exact List.forall_mem_cons.2 ⟨by simp [Parse.isPending],
                List.forall_mem_cons.2 ⟨hk, hks⟩⟩
            · rintro d hd
              obtain rfl : ';' = d := by simpa [htext] using hd
              rfl
      · refine ⟨⟨.semicolon, [';'], 0⟩ :: ks, rfl, ?_, .mark (by decide), ?_, hapart⟩
        · exact List.forall_mem_cons.2 ⟨by simp [Parse.isPending], hks⟩
        · exact fun _ _ => trivial

end Token

end StyleBlocks.Sheet
