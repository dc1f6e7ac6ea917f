import StyleBlocks.Block.Matcher
import StyleBlocks.Proofs.Template.Completion
import StyleBlocks.Proofs.Template.Reported

/-!
# Tags with calls

A tag is written as a name with properties and calls behind it. Blanks, line breaks and comments can
stand between its lexemes, and any code whose brackets are well nested can stand between the
parentheses of its calls: strings, regular expressions and whole templates, whose holes can hold any
code in turn. The arguments can themselves begin chains, close templates and put a dot behind
something; none of this reaches the chain of the tag, which the level of the parenthesis keeps until
it is closed.

Only a less-than sign is kept out of arguments: what it means depends on how the code goes on behind
it, even beyond the closing parenthesis.

## Main results

* `Reading.ReadsTokens.exists_alike`: arguments that are read by themselves are read in a call.
* `WritesTag.exists_reaches`: what is read of a written tag is the tag.
* `findTemplates_styled`: a template behind a styled tag is found with this tag and is accepted.
-/

namespace StyleBlocks.Template

/-! ### Written tags -/

/-- A lexeme **stands** at the start of `u`, in front of `v`. -/
def Lexeme.Stands (l : Lexeme) (u v : Text) : Prop :=
  ∃ c t, u = c :: t ∧ read c t = l ∧ rest c t = v

/-- Nothing but blanks, line breaks and comments stand at the start of a text, in front of another.
-/
inductive Gap : Text → Text → Prop
  | none {u : Text} : Gap u u
  | trivia {l : Lexeme} {k : LexemeKind} {u v w : Text} (stands : l.Stands u v)
      (kind : l.kind = some k) (isTrivia : k.isTrivia) (rest : Gap v w) : Gap u w

/-- Reading comes from a place to another one over **tokens** in which closing brackets are due, for
what has been opened in front of them: every bracket is closed by its counterpart, templates are
complete, a slash can begin a regular expression, and there is no less-than sign. -/
inductive Reading.ReadsTokens (lines : LineMap) : List LexemeKind → Reading → Reading → Prop
  /-- Nothing is left, and nothing is due. -/
  | done {r : Reading} : ReadsTokens lines [] r r
  /-- A lexeme that opens and closes nothing, or what fits no lexeme. -/
  | lexeme {due : List LexemeKind} {n : Nesting} {o : Nat} {c : Char} {t : Text} {r s : Reading}
      (kind : ∀ k ∈ (Lexeme.read c t).kind, k.isPlain ∨ k = .slash)
      (read : readLexeme lines n o c t = .ok r) (rest : ReadsTokens lines due r s) :
      ReadsTokens lines due ⟨n, o, c :: t⟩ s
  /-- An opening bracket, which makes its counterpart due. -/
  | opening {due : List LexemeKind} {n : Nesting} {o : Nat} {c : Char} {t : Text} {r s : Reading}
      {k closer : LexemeKind} (kind : (Lexeme.read c t).kind = some k)
      (opens : k.closer? = some closer) (read : readLexeme lines n o c t = .ok r)
      (rest : ReadsTokens lines (closer :: due) r s) : ReadsTokens lines due ⟨n, o, c :: t⟩ s
  /-- The closing bracket that is due. -/
  | closing {due : List LexemeKind} {n : Nesting} {o : Nat} {c : Char} {t : Text} {r s : Reading}
      {k : LexemeKind} (kind : (Lexeme.read c t).kind = some k)
      (read : readLexeme lines n o c t = .ok r) (rest : ReadsTokens lines due r s) :
      ReadsTokens lines (k :: due) ⟨n, o, c :: t⟩ s
  /-- A template, up to its closing backtick. -/
  | template {due : List LexemeKind} {n : Nesting} {o : Nat} {t : Text} {q r s : Reading}
      (read : readLexeme lines n o '\x60' t = .ok q)
      (complete : q.Completes lines n.openers.length r) (rest : ReadsTokens lines due r s) :
      ReadsTokens lines due ⟨n, o, '\x60' :: t⟩ s

/-- **Arguments** stand at the start of a text, in front of another: reading code that starts there
comes from the one to the other over tokens. -/
def IsArguments (u v : Text) : Prop :=
  ∃ (lines : LineMap) (s : Reading), Reading.ReadsTokens lines [] ⟨{}, 0, u⟩ s ∧ s.rest = v

/-- A tag is **written** at the start of a text, in front of another: as a name with properties and
calls behind it. -/
inductive WritesTag : Tag → Text → Text → Prop
  | name {name u v : Text} (stands : Lexeme.Stands ⟨some .identifier, name⟩ u v) :
      WritesTag (.identifier name) u v
  | member {object : Tag} {property source u₁ u₂ u₃ u₄ v : Text}
      (writes : WritesTag object source u₁) (front : Gap u₁ u₂)
      (dot : Lexeme.Stands ⟨some .dot, ['.']⟩ u₂ u₃) (back : Gap u₃ u₄)
      (name : Lexeme.Stands ⟨some .identifier, property⟩ u₄ v) :
      WritesTag (.member object property) source v
  | call {callee : Tag} {source u₁ u₂ u₃ u₄ v : Text} (writes : WritesTag callee source u₁)
      (gap : Gap u₁ u₂) (opening : Lexeme.Stands ⟨some .openParen, ['(']⟩ u₂ u₃)
      (arguments : IsArguments u₃ u₄) (closing : Lexeme.Stands ⟨some .closeParen, [')']⟩ u₄ v) :
      WritesTag (.call callee) source v

/-- The **styled tags** of a primary function and a secondary method: a call or a property of the
primary, and a call of the secondary on one of these. -/
inductive IsStyled (primary secondary : Text) : Tag → Prop
  | call : IsStyled primary secondary (.call (.identifier primary))
  | callOnCall :
      IsStyled primary secondary (.call (.member (.call (.identifier primary)) secondary))
  | member (property : Text) : IsStyled primary secondary (.member (.identifier primary) property)
  | callOnMember (property : Text) : IsStyled primary secondary
      (.call (.member (.member (.identifier primary) property) secondary))

/-- **Styled tags are accepted.** -/
theorem IsStyled.accepts {m : Matcher} {tag : Tag} (h : IsStyled m.primary m.secondary tag) :
    m.accepts tag = true := by
  cases h <;> simp [Matcher.accepts, Matcher.isPrimary]

/-! ### Reading tokens -/

section

variable {lines lines' : LineMap} {n m : Nesting} {o : Nat} {c : Char} {t u v : Text}
  {r r' s : Reading} {base os : List Opener} {k : LexemeKind} {l : Lexeme} {chain : Chain}

/-- What opens and closes nothing leaves the open levels as they are. -/
theorem openers_of_readLexeme_plain (hkind : ∀ k ∈ (Lexeme.read c t).kind, k.isPlain ∨ k = .slash)
    (h : readLexeme lines n o c t = .ok r) : r.nesting.openers = n.openers := by
  cases hk : (Lexeme.read c t).kind with
  | none =>
      simp only [readLexeme, hk] at h
      cases h
      rfl
  | some k =>
      rcases hkind k hk with hplain | rfl
      · obtain ⟨m, hm, -, hread⟩ := @readLexeme_plain lines n o c t k hk hplain
        rw [hread] at h
        cases h
        exact hm
      · simp only [readLexeme, hk, readCode] at h
        cases h
        exact (Nesting.openers_settle _ _ _).trans (Nesting.openers_modifyStatement _ n)

/-- What is reached over a lexeme is alike where the lexeme is read alike. -/
theorem Reading.Alike.exists_reaches (h : Reading.Alike base ⟨n, o, c :: t⟩ r')
    (hcloses : ∀ k ∈ (Lexeme.read c t).kind, k.closes → n.openers ≠ [])
    (hread : readLexeme lines n o c t = .ok s) (lines' : LineMap) :
    ∃ s', r'.Reaches lines' s' ∧ s.Alike base s' := by
  obtain ⟨m, o', t'⟩ := r'
  obtain ⟨hm, rfl⟩ := h
  obtain ⟨s', hread', hs'⟩ := Reading.Alike.exists_readLexeme hm hcloses hread
  exact ⟨s', .of_read hread', hs'⟩

/-- The backtick of a template opens a hole or nothing. -/
theorem exists_openers_of_backtick (h : readLexeme lines n o '\x60' t = .ok r) :
    ∃ os, r.nesting.openers = os ++ n.openers := by
  obtain ⟨m, comments, hm, -, hopen⟩ := readLexeme_backtick lines n o t
  rw [hopen] at h
  rcases openers_of_readLiteral h with ⟨hr, -⟩ | ⟨v, start, -, hr, -⟩
  · exact ⟨[], by rw [hr, hm, List.nil_append]⟩
  · exact ⟨[.hole v start], by rw [hr, hm]; rfl⟩

/-- **Tokens that are read by themselves** are read in the same way in the middle of other code, and
leave what is open around them as it was. -/
theorem Reading.ReadsTokens.exists_alike {due : List LexemeKind} (h : r.ReadsTokens lines due s)
    (hr : r.Alike base r') (hdue : r.nesting.openers.map Opener.closer? = due.map some)
    (lines' : LineMap) :
    ∃ s', r'.Reaches lines' s' ∧ s.Alike base s' ∧ s.nesting.openers = [] := by
  -- The brackets that are due are those of the levels that the tokens have opened: none of the
  -- brackets that close one closes a level of the code around them.
  induction h generalizing r' with
  | done => exact ⟨r', .refl, hr, by simpa using hdue⟩
  | @lexeme due n o c t r s hkind hread _ ih =>
      have hopens : ∀ k ∈ (Lexeme.read c t).kind, k.closes → n.openers ≠ [] := by
        intro k hk hcloses
        rcases hkind k hk with hplain | rfl
        · cases k <;> contradiction
        · contradiction
      obtain ⟨q, hq, halike⟩ := hr.exists_reaches hopens hread lines'
      obtain ⟨s', hs', hend⟩ :=
        ih halike (by rw [openers_of_readLexeme_plain hkind hread]; exact hdue)
      exact ⟨s', hq.trans hs', hend⟩
  | @opening due n o c t r s k closer hkind hopens hread _ ih =>
      have hcloses : ∀ k ∈ (Lexeme.read c t).kind, k.closes → n.openers ≠ [] := by
        intro k' hk' hcloses
        obtain rfl : k = k' := by simpa [hkind] using hk'
        cases k <;> contradiction
      obtain ⟨q, hq, halike⟩ := hr.exists_reaches hcloses hread lines'
      obtain ⟨m, p, hp, hm, -, hreadm⟩ := @readLexeme_opening lines n o c t k closer hkind hopens
      obtain rfl := Except.ok.inj (hreadm.symm.trans hread)
      obtain ⟨s', hs', hend⟩ := ih halike (by
        rw [hm, List.map_cons, hp, List.map_cons]
        exact congrArg (some closer :: ·) hdue)
      exact ⟨s', hq.trans hs', hend⟩
  | @closing due n o c t r s k hkind hread _ ih =>
      obtain ⟨p, os, hn, hp, hos⟩ := List.map_eq_cons_iff.1 hdue
      have hn : n.openers = p :: os := hn
      obtain ⟨q, hq, halike⟩ := hr.exists_reaches (by simp [hn]) hread lines'
      obtain ⟨m, hm, -, hreadm⟩ := @readLexeme_closing lines n o c t k p os hkind hn hp
      obtain rfl := Except.ok.inj (hreadm.symm.trans hread)
      obtain ⟨s', hs', hend⟩ := ih halike (by rw [hm]; exact hos)
      exact ⟨s', hq.trans hs', hend⟩
  | @template due n o t q r s hread hcomplete _ ih =>
      obtain ⟨m, o', t'⟩ := r'
      obtain ⟨hm, rfl⟩ := hr
      obtain ⟨q', hread', hq'⟩ := exists_readLexeme_backtick_alike hm.openers hread lines'
      obtain ⟨r', hr', halike⟩ := hcomplete.exists_alike hq' lines'
      obtain ⟨os, hos⟩ := exists_openers_of_backtick hread
      obtain ⟨s', hs', hend⟩ := ih halike (by rw [hcomplete.openers_eq hos rfl]; exact hdue)
      exact ⟨s', ((Reading.Reaches.of_read hread').trans hr'.reaches).trans hs', hend⟩

/-! ### Reading tags -/

/-- Blanks, line breaks and comments change neither the chain nor what is open. -/
theorem Gap.exists_reaches (h : Gap u v) (lines : LineMap) (n : Nesting) (o : Nat) :
    ∃ m o', Reading.Reaches lines ⟨n, o, u⟩ ⟨m, o', v⟩ ∧ m.openers = n.openers ∧
      m.chain = n.chain ∧ m.afterDot = n.afterDot := by
  induction h generalizing n o with
  | none => exact ⟨n, o, .refl, rfl, rfl, rfl⟩
  | @trivia l k u v w hstands hkind htrivia _ ih =>
      obtain ⟨c, t, rfl, rfl, rfl⟩ := hstands
      obtain ⟨m, o', hread, hopeners, hchain, hdot⟩ : ∃ m o', readLexeme lines n o c t =
          .ok ⟨m, o', Lexeme.rest c t⟩ ∧ m.openers = n.openers ∧ m.chain = n.chain ∧
            m.afterDot = n.afterDot := by
        simp only [readLexeme, hkind]
        cases k with
        | blanks | blockComment => exact ⟨n, _, rfl, rfl, rfl, rfl⟩
        | lineBreak => exact ⟨n.breakLine, _, rfl, by simp, by simp, by simp⟩
        | lineComment =>
            exact ⟨n.modifyStatement (Statement.comment _), _, rfl, by simp, by simp, by simp⟩
        | _ => contradiction
      obtain ⟨m', o'', hreaches, hopeners', hchain', hdot'⟩ := ih m o'
      exact ⟨m', o'', (Reading.Reaches.of_read hread).trans hreaches, hopeners'.trans hopeners,
        hchain'.trans hchain, hdot'.trans hdot⟩

/-- A lexeme that is not trivia is read by acting on it. -/
theorem Lexeme.Stands.reaches {text : Text} (h : Lexeme.Stands ⟨some k, text⟩ u v)
    (hk : k.isTrivia = false)
    (hread : readCode lines k text o ⟨n, o + Text.byteSize text, v⟩ = .ok s) :
    Reading.Reaches lines ⟨n, o, u⟩ s := by
  obtain ⟨c, t, rfl, hlexeme, rfl⟩ := h
  refine .of_read ?_
  simp only [readLexeme, hlexeme]
  cases k <;> first | contradiction | exact hread

/-- A name begins a chain, or is a property of the chain in front of a dot. -/
theorem exists_reaches_name {name : Text} (h : Lexeme.Stands ⟨some .identifier, name⟩ u v)
    (lines : LineMap) (n : Nesting) (o : Nat) :
    ∃ m o', Reading.Reaches lines ⟨n, o, u⟩ ⟨m, o', v⟩ ∧ m.openers = n.openers ∧
      m.afterDot = false ∧
      (n.afterDot = false → m.chain = some ⟨.identifier name, o⟩) ∧
      (n.afterDot = true → ∀ chain, n.chain = some chain →
        m.chain = some (chain.mapTag (.member · name))) := by
  refine ⟨_, _, h.reaches rfl rfl, ?_, by simp [Nesting.identifier], ?_, ?_⟩
  · exact (Nesting.openers_settle _ _ _).trans (Nesting.openers_modifyStatement _ n)
  · intro hdot
    simp [Nesting.identifier, hdot]
  · intro hdot chain hchain
    simp [Nesting.identifier, hdot, hchain]

/-- A dot behind a chain waits for a property. -/
theorem exists_reaches_dot (h : Lexeme.Stands ⟨some .dot, ['.']⟩ u v) (hn : n.chain = some chain)
    (lines : LineMap) (o : Nat) :
    ∃ m o', Reading.Reaches lines ⟨n, o, u⟩ ⟨m, o', v⟩ ∧ m.openers = n.openers ∧
      m.chain = some chain ∧ m.afterDot = true := by
  refine ⟨_, _, h.reaches rfl rfl, ?_, by simp [hn], by simp [hn]⟩
  exact (Nesting.openers_settle _ _ _).trans (Nesting.openers_modifyStatement _ n)

/-- Behind an opening parenthesis reading goes on as at the start of code, above a level that keeps
the chain in front of the parenthesis. -/
theorem exists_alike_of_openParen (h : Lexeme.Stands ⟨some .openParen, ['(']⟩ u v)
    (lines : LineMap) (n : Nesting) (o : Nat) :
    ∃ m o', Reading.Reaches lines ⟨n, o, u⟩ ⟨m, o', v⟩ ∧
      Nesting.Alike (.paren n.chain :: n.openers) {} m := by
  refine ⟨_, _, h.reaches rfl rfl, ⟨[], ?_, rfl⟩, rfl, rfl, rfl⟩
  rw [Nesting.openers_settle, Nesting.chain_modifyStatement, List.nil_append,
    ← Nesting.openers_modifyStatement (Statement.meet .openParen) n]
  rfl

/-- A closing parenthesis gives back what its level has kept, as a call. -/
theorem exists_reaches_of_closeParen {callee : Option Chain}
    (h : Lexeme.Stands ⟨some .closeParen, [')']⟩ u v) (hn : n.openers = .paren callee :: os)
    (lines : LineMap) (o : Nat) :
    ∃ m o', Reading.Reaches lines ⟨n, o, u⟩ ⟨m, o', v⟩ ∧ m.openers = os ∧
      m.chain = callee.map (Chain.mapTag .call) ∧ m.afterDot = false := by
  obtain ⟨l, ls, hl, hopener, rfl⟩ := Nesting.exists_levels_of_openers
    ((Nesting.openers_modifyStatement (Statement.meet .closeParen) n).trans hn)
  have hclose : (n.modifyStatement (Statement.meet .closeParen)).closeLevel .closeParen =
      { n.modifyStatement (Statement.meet .closeParen) with
        levels := ls, chain := callee.map (Chain.mapTag .call), afterDot := false } := by
    rw [Nesting.closeLevel, hl]
    simp only [hopener]
  refine ⟨_, _, h.reaches rfl rfl, ?_, ?_, ?_⟩
  · rw [hclose]
    exact Nesting.openers_settle _ _ _
  · rw [hclose]
    exact Nesting.chain_settle _ _ _
  · rw [hclose]
    exact Nesting.afterDot_settle _ _ _

/-- **A call**: parentheses around arguments, behind a chain, make a call of it. -/
theorem exists_reaches_call {u₁ u₂ : Text}
    (hopening : Lexeme.Stands ⟨some .openParen, ['(']⟩ u u₁) (harguments : IsArguments u₁ u₂)
    (hclosing : Lexeme.Stands ⟨some .closeParen, [')']⟩ u₂ v) (hn : n.chain = some chain)
    (lines : LineMap) (o : Nat) :
    ∃ m o', Reading.Reaches lines ⟨n, o, u⟩ ⟨m, o', v⟩ ∧ m.openers = n.openers ∧
      m.chain = some (chain.mapTag .call) ∧ m.afterDot = false := by
  obtain ⟨lines₀, s, htokens, rfl⟩ := harguments
  obtain ⟨m₁, o₁, hreaches₁, halike⟩ := exists_alike_of_openParen hopening lines n o
  have hstart : Reading.Alike (.paren n.chain :: n.openers) ⟨{}, 0, u₁⟩ ⟨m₁, o₁, u₁⟩ :=
    ⟨halike, rfl⟩
  obtain ⟨⟨m₂, o₂, u₂⟩, hreaches₂, ⟨hend, hrest⟩, hnil⟩ := htokens.exists_alike hstart rfl lines
  obtain rfl : u₂ = s.rest := hrest
  have hopeners : m₂.openers = .paren n.chain :: n.openers := by
    obtain ⟨os, hos, hmap⟩ := hend.openers
    rw [hnil, List.map_nil, List.map_eq_nil_iff] at hmap
    rw [show m₂.openers = os ++ _ from hos, hmap, List.nil_append]
  obtain ⟨m, o', hreaches, hm, hchain, hdot⟩ :=
    exists_reaches_of_closeParen hclosing hopeners lines o₂
  refine ⟨m, o', (hreaches₁.trans hreaches₂).trans hreaches, hm, ?_, hdot⟩
  rw [hchain, hn, Option.map_some]

/-- **What is read of a written tag** at the start of a source is the tag. -/
theorem WritesTag.exists_reaches {tag : Tag} (h : WritesTag tag u v) (lines : LineMap) :
    ∃ m o, Reading.Reaches lines ⟨{}, 0, u⟩ ⟨m, o, v⟩ ∧ m.openers = [] ∧
      m.chain = some ⟨tag, 0⟩ ∧ m.afterDot = false := by
  induction h with
  | name hname =>
      obtain ⟨m, o, hreaches, hopeners, hdot, hchain, -⟩ :=
        exists_reaches_name hname lines {} 0
      exact ⟨m, o, hreaches, hopeners, hchain rfl, hdot⟩
  | member _ hfront hdot hback hname ih =>
      obtain ⟨m₁, o₁, hreaches₁, hopeners₁, hchain₁, -⟩ := ih
      obtain ⟨m₂, o₂, hreaches₂, hopeners₂, hchain₂, -⟩ := hfront.exists_reaches lines m₁ o₁
      obtain ⟨m₃, o₃, hreaches₃, hopeners₃, hchain₃, hdot₃⟩ :=
        exists_reaches_dot hdot (hchain₂.trans hchain₁) lines o₂
      obtain ⟨m₄, o₄, hreaches₄, hopeners₄, hchain₄, hdot₄⟩ := hback.exists_reaches lines m₃ o₃
      obtain ⟨m₅, o₅, hreaches₅, hopeners₅, hdot₅, -, hchain₅⟩ :=
        exists_reaches_name hname lines m₄ o₄
      refine ⟨m₅, o₅, ?_, ?_, ?_, hdot₅⟩
      · exact (((hreaches₁.trans hreaches₂).trans hreaches₃).trans hreaches₄).trans hreaches₅
      · rw [hopeners₅, hopeners₄, hopeners₃, hopeners₂, hopeners₁]
      · exact hchain₅ (hdot₄.trans hdot₃) _ (hchain₄.trans hchain₃)
  | call _ hgap hopening harguments hclosing ih =>
      obtain ⟨m₁, o₁, hreaches₁, hopeners₁, hchain₁, -⟩ := ih
      obtain ⟨m₂, o₂, hreaches₂, hopeners₂, hchain₂, -⟩ := hgap.exists_reaches lines m₁ o₁
      obtain ⟨m₃, o₃, hreaches₃, hopeners₃, hchain₃, hdot₃⟩ := exists_reaches_call hopening
        harguments hclosing (hchain₂.trans hchain₁) lines o₂
      refine ⟨m₃, o₃, (hreaches₁.trans hreaches₂).trans hreaches₃, ?_, hchain₃, hdot₃⟩
      rw [hopeners₃, hopeners₂, hopeners₁]

/-! ### Templates behind tags -/

/-- Wherever reading comes, it has come over what is not left of the source. -/
theorem sound_of_reaches {source : Text}
    (h : Reading.Reaches (LineMap.ofText source) ⟨{}, 0, source⟩ s) : s.Sound source := by
  induction h with
  | refl => exact ⟨[], rfl, rfl, Nesting.sound_empty source⟩
  | step _ hread ih =>
      obtain ⟨read, hsource, hoffset, hsound⟩ := ih
      exact sound_readLexeme hsource hsound (hoffset ▸ hread)

/-- Finding templates fails as reading does. -/
theorem findTemplates_eq_error_iff {source : Text} {e : ScanError} :
    findTemplates source = .error e ↔
      readToEnd (LineMap.ofText source) {} 0 source = .error e := by
  rw [findTemplates]
  cases readToEnd (LineMap.ofText source) {} 0 source <;>
    simp [bind, Except.bind, pure, Except.pure]

/-- **A template behind a written tag** is closed with this tag. -/
theorem WritesTag.exists_tagged {tag : Tag} {rest : Text} (htag : WritesTag tag u v)
    (hgap : Gap v ('\x60' :: t)) (htemplate : CompleteTemplate t rest) (lines : LineMap) :
    ∃ s, Reading.Reaches lines ⟨{}, 0, u⟩ s ∧ s.rest = rest ∧ s.nesting.openers = [] ∧
      ∃ found ∈ s.nesting.closed, found.tag = tag ∧ found.span = ⟨0, s.offset⟩ := by
  obtain ⟨m₁, o₁, hreaches₁, hopeners₁, hchain₁, -⟩ := htag.exists_reaches lines
  obtain ⟨m, o, hreaches₂, hopeners, hchain, -⟩ := hgap.exists_reaches lines m₁ o₁
  obtain ⟨lines₀, q, s, hread, hcomplete, rfl⟩ := htemplate
  have hm : m.openers = [] := hopeners.trans hopeners₁
  have hopen : Nesting.OpenAlike [] {} m := ⟨[], hm, rfl⟩
  obtain ⟨q', hread', hq'⟩ := exists_readLexeme_backtick_alike hopen hread lines
  obtain ⟨s', hcomplete', hs'⟩ := hcomplete.exists_alike hq' lines
  have hdepth : m.openers.length = 0 + ([] : List Opener).length := by rw [hm]; rfl
  obtain ⟨os, hos⟩ := exists_openers_of_backtick hread'
  obtain ⟨found, hfound, htag, hspan⟩ :=
    exists_tagged_of_completes hread' (hdepth ▸ hcomplete') (hchain.trans hchain₁)
  refine ⟨s', ?_, hs'.rest, ?_, found, hfound, htag, hspan⟩
  · exact ((hreaches₁.trans hreaches₂).trans (.of_read hread')).trans hcomplete'.reaches
  · rw [← hm]
    exact hcomplete'.openers_eq hos hdepth

/-- **Call arguments do not show in tags.** A source begins with a styled tag: the lexemes of the
tag can have blanks, line breaks and comments between them, and its calls any arguments that are read
as tokens with well-nested brackets and no less-than sign. Behind the tag stands a complete template.
The first template that is found starts where the source starts and has this tag, and it is accepted
by every matcher with these names. Nothing is found only if a template behind it does not close. -/
theorem findTemplates_styled {primary secondary rest : Text} {tag : Tag}
    (hstyled : IsStyled primary secondary tag) (htag : WritesTag tag u v)
    (hgap : Gap v ('\x60' :: t)) (htemplate : CompleteTemplate t rest) :
    ∃ found : Tagged, found.tag = tag ∧ found.span.start = 0 ∧
      (∃ front, u = front ++ rest ∧ found.span.stop = Text.byteSize front) ∧
      (∀ ts, findTemplates u = .ok ts → ts.head? = some found) ∧
      (∀ opening position, findTemplates u = .error (.unterminated opening position) →
        found.span.stop ≤ opening) ∧
      (rest = [] → ∃ ts, findTemplates u = .ok ts) ∧
      ∀ m : Matcher, m.primary = primary → m.secondary = secondary →
        m.accepts found.tag = true := by
  obtain ⟨s, hreaches, rfl, hopeners, found, hfound, rfl, hspan⟩ :=
    htag.exists_tagged hgap htemplate (LineMap.ofText u)
  have htoEnd : readToEnd (LineMap.ofText u) {} 0 u = s.toEnd (LineMap.ofText u) :=
    readToEnd_of_reaches hreaches
  have hhead : ∀ n, s.toEnd (LineMap.ofText u) = .ok n →
      ∃ ts, findTemplates u = .ok (found :: ts) := fun n hn =>
    findTemplates_of_start_eq_zero (htoEnd.trans hn) (closed_subset_of_readToEnd hn hfound)
      (by rw [hspan])
  refine ⟨found, rfl, by rw [hspan], ?_, ?_, ?_, ?_, ?_⟩
  · obtain ⟨front, hu, hoffset, -⟩ := sound_of_reaches hreaches
    exact ⟨front, hu, by rw [hspan, hoffset]⟩
  · intro ts hts
    obtain ⟨n, hn, -⟩ := findTemplates_eq_ok_iff.1 hts
    obtain ⟨us, hus⟩ := hhead n (htoEnd ▸ hn)
    rw [hus] at hts
    cases hts
    rfl
  · intro opening position herror
    have hbehind : s.IsBehind found.span.stop := by
      refine ⟨by rw [hspan], fun u s hu => ?_⟩
      rw [hopeners] at hu
      contradiction
    exact le_offset_of_readToEnd_error hbehind (htoEnd ▸ findTemplates_eq_error_iff.1 herror)
  · intro hrest
    obtain ⟨n, hn⟩ : ∃ n, s.toEnd (LineMap.ofText u) = .ok n :=
      ⟨s.nesting, by rw [Reading.toEnd, hrest]; exact readToEnd_nil hopeners⟩
    obtain ⟨ts, hts⟩ := hhead n hn
    exact ⟨_, hts⟩
  · rintro m rfl rfl
    exact hstyled.accepts

end

/-- In the arguments stand a regular expression with a parenthesis and a template with a hole. -/
theorem findTemplates_styled_brackets :
    let source := "a.b//c\n.d([/[)]/,`$\x7be\x7d`])`f`".toList
    let tag : Tag := .call (.member (.member (.identifier ['a']) ['b']) ['d'])
    IsStyled ['a'] ['d'] tag ∧ WritesTag tag source "`f`".toList ∧
      CompleteTemplate "f`".toList [] ∧
      ∃ found ts, findTemplates source = .ok (found :: ts) ∧ found.tag = tag ∧
        found.span.start = 0 ∧
        Matcher.accepts { primary := ['a'], secondary := ['d'] } found.tag = true := by
  intro source tag
  have hname : WritesTag (.identifier ['a']) source ".b//c\n.d([/[)]/,`$\x7be\x7d`])`f`".toList :=
    .name ⟨_, _, rfl, rfl, rfl⟩
  have hmember : WritesTag (.member (.identifier ['a']) ['b']) source
      "//c\n.d([/[)]/,`$\x7be\x7d`])`f`".toList :=
    .member hname .none ⟨_, _, rfl, rfl, rfl⟩ .none ⟨_, _, rfl, rfl, rfl⟩
  have hcomment : Gap "//c\n.d([/[)]/,`$\x7be\x7d`])`f`".toList
      ".d([/[)]/,`$\x7be\x7d`])`f`".toList :=
    .trivia (k := .lineComment) ⟨_, _, rfl, rfl, rfl⟩ rfl rfl
      (.trivia (k := .lineBreak) ⟨_, _, rfl, rfl, rfl⟩ rfl rfl .none)
  have hmethod : WritesTag (.member (.member (.identifier ['a']) ['b']) ['d']) source
      "([/[)]/,`$\x7be\x7d`])`f`".toList :=
    .member hmember hcomment ⟨_, _, rfl, rfl, rfl⟩ .none ⟨_, _, rfl, rfl, rfl⟩
  have harguments : IsArguments "[/[)]/,`$\x7be\x7d`])`f`".toList ")`f`".toList :=
    ⟨.ofText [], _, .opening (k := .openBracket) rfl rfl rfl <|
      .lexeme (by rintro k ⟨⟩; exact Or.inr rfl) rfl <|
      .lexeme (by rintro k ⟨⟩; exact Or.inl rfl) rfl <|
      .template rfl (.step (by decide) rfl (.step (by decide) rfl (.done rfl))) <|
      .closing (k := .closeBracket) rfl rfl .done, rfl⟩
  have hcall : WritesTag tag source "`f`".toList :=
    .call hmethod .none ⟨_, _, rfl, rfl, rfl⟩ harguments ⟨_, _, rfl, rfl, rfl⟩
  have hstyled : IsStyled ['a'] ['d'] tag := .callOnMember ['b']
  have htemplate : CompleteTemplate "f`".toList [] := ⟨.ofText [], _, _, rfl, .done rfl, rfl⟩
  obtain ⟨found, htag, hstart, -, hhead, -, hfinds, haccepts⟩ :=
    findTemplates_styled hstyled hcall .none htemplate
  obtain ⟨ts, hts⟩ := hfinds rfl
  obtain ⟨us, rfl⟩ := List.head?_eq_some_iff.1 (hhead ts hts)
  exact ⟨hstyled, hcall, htemplate, found, us, hts, htag, hstart, haccepts _ rfl rfl⟩

end StyleBlocks.Template
