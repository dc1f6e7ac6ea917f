import StyleBlocks.Sheet.Dialect
import StyleBlocks.Proofs.Sheet.LeafForm

/-!
# The order of the dialects

Grammars differ in two switches. Whether statements without a colon can be rules is asked at one
place only, where the answer *no* is an error; whether comments can go to the end of a line is asked
at tokens of such comments only. So two runs that differ in one of the switches stay in step, token
by token, until the run that knows less stops with an error. What plain style sheets say to one
dialect they say to the dialects above it.

## Main results

* `Parse.agreesUpTo_run`: runs agree up to some errors if what they read of a statement does.
* `parse_agreesUpTo_bareStatements`: the grammar without rules that have no block reads what the
  grammar with them reads, or meets a word that it does not know.
* `parse_inlineComments`: a text without inline comments is the same in both grammars.
* `parse_refines`: what a dialect accepts is the same style sheet in the dialects above it.
-/

namespace StyleBlocks.Sheet

/-- A result **agrees** with another **up to** the errors `E`: it is the same, or one of them. -/
def AgreesUpTo {α : Type} (E : ParseError → Prop) (x y : Except ParseError α) : Prop :=
  x = y ∨ ∃ e, E e ∧ x = .error e

namespace AgreesUpTo

variable {α β : Type} {E : ParseError → Prop} {x y : Except ParseError α}

/-- A result agrees with itself. -/
theorem refl (x : Except ParseError α) : AgreesUpTo E x x :=
  Or.inl rfl

/-- Results that agree still do after the same map. -/
theorem map (h : AgreesUpTo E x y) (f : α → β) : AgreesUpTo E (x.map f) (y.map f) := by
  rcases h with rfl | ⟨e, he, rfl⟩
  · exact refl _
  · exact Or.inr ⟨e, he, rfl⟩

/-- Results that agree still do after steps that agree on what they have in common. -/
theorem bind (h : AgreesUpTo E x y) {f f' : α → Except ParseError β}
    (hf : ∀ a, x = .ok a → AgreesUpTo E (f a) (f' a)) : AgreesUpTo E (x.bind f) (y.bind f') := by
  rcases h with rfl | ⟨e, he, rfl⟩
  · cases x with
    | error e => exact refl _
    | ok a => exact hf a rfl
  · exact Or.inr ⟨e, he, rfl⟩

/-- What succeeds is the same. -/
theorem eq_ok (h : AgreesUpTo E x y) {a : α} (hx : x = .ok a) : y = .ok a := by
  rcases h with rfl | ⟨e, -, rfl⟩
  · exact hx
  · contradiction

/-- Up to no errors, everything is the same. -/
theorem eq (h : AgreesUpTo (fun _ => False) x y) : x = y :=
  h.resolve_right fun ⟨_, he, _⟩ => he

end AgreesUpTo

/-! ### Runs in step -/

section

variable {g g' : Grammar} {lines : LineMap} {before : Text} {p : Parse} {t : Token}
  {ts : List Token}

/-- What is left after a statement stands at the end of what was there. -/
theorem rest_suffix_of_readStatement (ht : t.Begins g) {r : Read}
    (h : readStatement g lines before t ts = .ok r) : r.rest <:+ ts := by
  obtain ⟨statement, rest⟩ := r
  cases statement with
  | opening head start brace =>
      obtain ⟨us, rfl, -⟩ := exists_isHead_of_readStatement ht h
      exact List.suffix_append us rest
  | whole n terminated =>
      obtain ⟨core, back, -, -, ⟨u, -, -, -, rfl⟩ | ⟨-, -, following, hrest, rfl, -⟩⟩ :=
        exists_leaf_of_readStatement ht h
      · exact ⟨core ++ back ++ [u], by simp⟩
      · exact ⟨core, by simp [hrest]⟩

/-- What is left after a step stands at the end of what was there. -/
theorem Parse.snd_step_suffix {q : Parse × List Token} (h : p.step g lines t ts = .ok q) :
    q.2 <:+ ts := by
  rw [step] at h
  split at h
  · cases h
    exact List.suffix_refl ts
  · cases h
    exact List.suffix_refl ts
  · split at h
    · contradiction
    · cases h
      exact List.suffix_refl ts
  · next hspace hsemicolon hclose =>
      cases hr : readStatement g lines p.body.pending t ts with
      | error e => simp [hr, Except.map] at h
      | ok r =>
          simp only [hr, Except.map, Except.ok.injEq] at h
          subst h
          rcases begins_or_comment (g := g) ⟨hspace, hsemicolon⟩ hclose with ht | ⟨b, hb, hbare⟩
          · exact rest_suffix_of_readStatement ht hr
          · obtain ⟨m, hm, -⟩ := readStatement_comment (hbare.symm ▸ hb) lines p.body.pending ts
            cases hm.symm.trans hr
            exact List.suffix_refl ts

/-- Steps agree if what is read of a statement does. -/
theorem Parse.agreesUpTo_step {E : ParseError → Prop}
    (hread : AgreesUpTo E (readStatement g lines p.body.pending t ts)
      (readStatement g' lines p.body.pending t ts)) :
    AgreesUpTo E (p.step g lines t ts) (p.step g' lines t ts) := by
  rw [step, step]
  split
  · exact .refl _
  · exact .refl _
  · exact .refl _
  · exact hread.map _

/-- **Runs in step**: if two grammars agree on every statement that a token with the property `P`
begins, they agree on all tokens with that property. -/
theorem Parse.agreesUpTo_run {E : ParseError → Prop} {P : Token → Prop}
    (hread : ∀ before t ts, P t →
      AgreesUpTo E (readStatement g lines before t ts) (readStatement g' lines before t ts))
    (p : Parse) (hts : ∀ k ∈ ts, P k) : AgreesUpTo E (p.run g lines ts) (p.run g' lines ts) := by
  -- A step can leave off far behind its token, so the induction is on the number of tokens.
  induction hn : ts.length using Nat.strong_induction_on generalizing p ts with
  | h n ih =>
      cases ts with
      | nil => rw [run, run]; exact .refl _
      | cons t ts =>
          obtain ⟨ht, hts⟩ := List.forall_mem_cons.1 hts
          rw [run_cons, run_cons]
          refine (agreesUpTo_step (hread _ t ts ht)).bind fun q hq => ?_
          have hlength : q.2.length < n := by
            have := length_snd_step_le hq
            rw [List.length_cons] at hn
            omega
          exact ih _ hlength q.1 (fun k hk => hts k ((snd_step_suffix hq).mem hk)) rfl

/-- Whole texts agree if their tokens do. -/
theorem agreesUpTo_parse {E : ParseError → Prop} {t : Text}
    (h : ∀ ts, Token.tokenize t = .ok ts →
      AgreesUpTo E (Parse.run g (LineMap.ofText t) {} ts) (Parse.run g' (LineMap.ofText t) {} ts)) :
    AgreesUpTo E (parse g t) (parse g' t) :=
  (AgreesUpTo.refl (Token.tokenize t)).bind fun ts hts => (h ts hts).bind fun _ _ => .refl _

end

/-! ### Statements without a colon -/

section

variable {i : Bool} {lines : LineMap} {before : Text} {t : Token} {ts inner : List Token}
  {ending : Ending}

/-- An error about a statement that is neither a rule nor a declaration. -/
def ParseError.IsUnknownWord (e : ParseError) : Prop :=
  ∃ word position, e = .unknownWord word position

/-- With and without bare statements, a rule or declaration is read alike, but for an unknown
word. -/
theorem agreesUpTo_readRuleOrDeclaration :
    AgreesUpTo ParseError.IsUnknownWord
      (readRuleOrDeclaration ⟨i, false⟩ lines before t inner ending)
      (readRuleOrDeclaration ⟨i, true⟩ lines before t inner ending) := by
  unfold readRuleOrDeclaration
  dsimp only
  cases ending with
  | brace u rest => exact .refl _
  | semicolon u rest | outside rest =>
      dsimp only
      split
      · exact .refl _
      · exact Or.inr ⟨_, ⟨_, _, rfl⟩, rfl⟩

/-- With and without bare statements, a statement is read alike, but for an unknown word. -/
theorem agreesUpTo_readStatement (before : Text) (t : Token) (ts : List Token) :
    AgreesUpTo ParseError.IsUnknownWord (readStatement ⟨i, false⟩ lines before t ts)
      (readStatement ⟨i, true⟩ lines before t ts) := by
  rw [readStatement, readStatement]
  split
  · exact .refl _
  · exact .refl _
  · dsimp only
    split
    · exact .refl _
    · exact agreesUpTo_readRuleOrDeclaration

/-- A text is the same without rules that have no block as with them, or it has **a statement that
is neither a rule nor a declaration**. -/
theorem parse_agreesUpTo_bareStatements (i : Bool) (t : Text) :
    AgreesUpTo ParseError.IsUnknownWord (parse ⟨i, false⟩ t) (parse ⟨i, true⟩ t) :=
  agreesUpTo_parse fun _ _ => Parse.agreesUpTo_run (P := fun _ => True)
    (fun before t ts _ => agreesUpTo_readStatement before t ts) {} fun _ _ => trivial

end

/-! ### Comments up to the end of a line -/

/-- A text **has no inline comments** if none of its tokens is one. -/
def HasNoInlineComments (t : Text) : Prop :=
  ∀ ts, Token.tokenize t = .ok ts → ∀ k ∈ ts, k.kind ≠ .lineComment

/-- What a token other than an inline comment begins is the same with inline comments as without. -/
theorem readStatement_inlineComments {b : Bool} {lines : LineMap} {before : Text} {t : Token}
    {ts : List Token} (ht : t.kind ≠ .lineComment) :
    readStatement ⟨true, b⟩ lines before t ts = readStatement ⟨false, b⟩ lines before t ts := by
  rw [readStatement, readStatement]
  split
  · rfl
  · rfl
  · rw [if_neg fun h => ht h.1, if_neg fun h => ht h.1]
    rfl

/-- **A text without inline comments** is the same whether a grammar has them or not. -/
theorem parse_inlineComments {t : Text} (h : HasNoInlineComments t) (b : Bool) :
    parse ⟨true, b⟩ t = parse ⟨false, b⟩ t :=
  AgreesUpTo.eq <| agreesUpTo_parse fun ts hts => Parse.agreesUpTo_run
    (fun _ _ _ hk => readStatement_inlineComments hk ▸ .refl _) {} (h ts hts)

/-! ### Dialects -/

/-- A dialect accepts with the same style sheet what another accepts, if its grammar does. -/
theorem Dialect.parse_of_grammar {d d' : Dialect} {o : Option Text} {t : Text} {root : Root}
    (hgrammar : ∀ r, Sheet.parse d.grammar t = .ok r → Sheet.parse d'.grammar t = .ok r)
    (h : d.parse o t = .ok root) : d'.parse o t = .ok root := by
  rw [Dialect.parse] at h ⊢
  cases hr : Sheet.parse d.grammar t with
  | error e => simp [hr, Except.map] at h
  | ok r =>
      rw [hr] at h
      rw [hgrammar r hr]
      exact h

/-- **The order of the dialects.** What a grammar without rules that have no block accepts is the
same style sheet with them; inline comments make a difference only to texts that have some. So what
the second dialect accepts is the same style sheet in the third, and what the first accepts is the
same in both, unless it has inline comments. -/
theorem parse_refines (t : Text) :
    (∀ i root, parse ⟨i, false⟩ t = .ok root → parse ⟨i, true⟩ t = .ok root) ∧
    (HasNoInlineComments t → ∀ b, parse ⟨true, b⟩ t = parse ⟨false, b⟩ t) ∧
    (∀ o root, Dialect.scss.parse o t = .ok root → Dialect.less.parse o t = .ok root) ∧
    (HasNoInlineComments t → ∀ o root, Dialect.css.parse o t = .ok root →
      Dialect.scss.parse o t = .ok root ∧ Dialect.less.parse o t = .ok root) := by
  have hbare : ∀ i root, parse ⟨i, false⟩ t = .ok root → parse ⟨i, true⟩ t = .ok root :=
    fun i _ => (parse_agreesUpTo_bareStatements i t).eq_ok
  have hless : ∀ o root, Dialect.scss.parse o t = .ok root → Dialect.less.parse o t = .ok root :=
    fun o root => Dialect.parse_of_grammar (hbare true)
  refine ⟨hbare, parse_inlineComments, hless, fun hcomments o root hcss => ?_⟩
  have hscss : Dialect.scss.parse o t = .ok root :=
    Dialect.parse_of_grammar (fun _ => (parse_inlineComments hcomments false).trans) hcss
  exact ⟨hscss, hless o root hscss⟩

/-- One style sheet for all three dialects. -/
theorem parse_refines_rule_with_declaration :
    HasNoInlineComments "a\x7bb: c\x7d".toList ∧ ∃ root,
      Dialect.css.parse none "a\x7bb: c\x7d".toList = .ok root ∧
      Dialect.scss.parse none "a\x7bb: c\x7d".toList = .ok root ∧
      Dialect.less.parse none "a\x7bb: c\x7d".toList = .ok root := by
  have hcomments : HasNoInlineComments "a\x7bb: c\x7d".toList := by
    intro ts hts
    have htokens : (Token.tokenize "a\x7bb: c\x7d".toList).map
        (·.all fun k => k.kind ≠ .lineComment) = .ok true := by decide +kernel
    rw [hts] at htokens
    simpa [Except.map] using htokens
  have haccepts : (Dialect.css.parse none "a\x7bb: c\x7d".toList).isOk = true := by decide +kernel
  cases hroot : Dialect.css.parse none "a\x7bb: c\x7d".toList with
  | error e => rw [hroot] at haccepts; contradiction
  | ok root =>
      have hdialects := (parse_refines "a\x7bb: c\x7d".toList).2.2.2 hcomments none root hroot
      exact ⟨hcomments, root, rfl, hdialects⟩

end StyleBlocks.Sheet
