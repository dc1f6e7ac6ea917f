import StyleBlocks.Proofs.Template.Steps

/-!
# What a lexeme does to the statements

The levels that are open, with the statement of each, change in five ways. Most lexemes act on the
statement of the innermost level and on nothing else. An opening bracket opens a level with a fresh
statement and its counterpart goes back to the level below; a backtick starts a template, and the
brace that closes a hole goes on with one. Below the innermost level no statement changes, but for
the note that an expression has ended where a level is left.

## Main results

* `levelStep_of_readLexeme`: reading a lexeme changes the levels in one of these ways.
-/

namespace StyleBlocks.Template

/-- The kinds of opening brackets. -/
def LexemeKind.opens : LexemeKind → Bool
  | openParen | openBracket | openBrace => true
  | _ => false

/-! ### Statements -/

namespace Statement

/-- A statement after a lexeme that is not trivia and neither opens nor closes a level in it. -/
def act (k : LexemeKind) (s : Statement) : Statement :=
  if k = .semicolon ∨ k = .comma then finish (meet k s)
  else { meet k s with endsExpression := k.endsExpression }

/-- A statement after a lexeme that opens and closes no level; `breaks` tells if line breaks can end
it. -/
def take (breaks : Bool) (l : Lexeme) (s : Statement) : Statement :=
  match l.kind with
  | none | some .blanks | some .blockComment => s
  | some .lineBreak => if breaks then breakLine s else s
  | some .lineComment => comment (l.text.drop 2) s
  | some k => act k s

/-- A statement after an expression in it has ended with a level above. -/
def endExpression (s : Statement) : Statement :=
  { s with endsExpression := true }

end Statement

/-! ### Levels -/

namespace Nesting

/-- The comments that lead the statements of the program as a whole and of some levels, innermost
first. -/
def leadingOf (base : Statement) (ls : List Level) : List Text :=
  base.leading ++ ls.reverse.flatMap fun l => l.statement.leading

/-- A level adds the comments of its statement. -/
theorem leadingOf_cons (base : Statement) (l : Level) (ls : List Level) :
    leadingOf base (l :: ls) = leadingOf base ls ++ l.statement.leading := by
  simp [leadingOf]

/-- Two nestings **agree** if they have the same levels, with the same statements, and the same closed
templates. -/
structure Agrees (n m : Nesting) : Prop where
  base : m.base = n.base
  levels : m.levels = n.levels
  closed : m.closed = n.closed

section

variable {n m l : Nesting} {f g : Statement → Statement} {k : LexemeKind} {text : Text}

namespace Agrees

/-- A nesting agrees with itself. -/
theorem refl (n : Nesting) : n.Agrees n :=
  ⟨rfl, rfl, rfl⟩

/-- Nestings that agree with one in common agree. -/
theorem trans (h : n.Agrees m) (h' : m.Agrees l) : n.Agrees l :=
  ⟨h'.base.trans h.base, h'.levels.trans h.levels, h'.closed.trans h.closed⟩

/-- Agreeing nestings still do after the same change to the statement. -/
theorem modifyStatement (h : n.Agrees m) (f : Statement → Statement) :
    (n.modifyStatement f).Agrees (m.modifyStatement f) := by
  obtain ⟨hbase, hlevels, hclosed⟩ := h
  simp only [Nesting.modifyStatement, hlevels]
  split
  · exact ⟨by rw [hbase], rfl, hclosed⟩
  · exact ⟨hbase, rfl, hclosed⟩

/-- Agreeing nestings have the same levels open. -/
theorem openers_eq (h : n.Agrees m) : m.openers = n.openers := by
  rw [openers, h.levels, openers]

/-- The comments that lead the open statements are those of the levels. -/
theorem leadingComments_eq (h : n.Agrees m) : m.leadingComments = n.leadingComments := by
  rw [Nesting.leadingComments, h.base, h.levels, Nesting.leadingComments]

end Agrees

/-- Two changes of the current statement are one. -/
theorem modifyStatement_modifyStatement (f g : Statement → Statement) (n : Nesting) :
    (n.modifyStatement f).modifyStatement g = n.modifyStatement (g ∘ f) := by
  cases hl : n.levels <;> simp [modifyStatement, hl]

/-- A change to the statement that does nothing leaves the nesting in agreement. -/
theorem agrees_modifyStatement_id (n : Nesting) : (n.modifyStatement id).Agrees n := by
  cases hl : n.levels <;> simp only [modifyStatement, hl] <;> exact ⟨rfl, by simp [hl], rfl⟩

/-- A line break changes no more than the innermost statement. -/
theorem agrees_breakLine (n : Nesting) :
    (n.modifyStatement fun s => if n.breaksEndStatements then s.breakLine else s).Agrees
      n.breakLine := by
  rw [Nesting.breakLine]
  split
  · exact .refl _
  · exact agrees_modifyStatement_id n

/-- The current statement after a change. -/
@[simp] theorem statement_modifyStatement (f : Statement → Statement) (n : Nesting) :
    (n.modifyStatement f).statement = f n.statement := by
  cases hl : n.levels <;> simp [modifyStatement, statement, hl]

/-- After a semicolon or a comma the levels are as they were. -/
theorem agrees_settle_of_separates (hk : k = .semicolon ∨ k = .comma) (text : Text) (n : Nesting) :
    n.Agrees (n.settle k text) := by
  rcases hk with rfl | rfl <;> exact ⟨rfl, rfl, rfl⟩

/-- After any other lexeme the current statement knows if an expression can end there. -/
theorem agrees_settle (hk : ¬(k = .semicolon ∨ k = .comma)) (text : Text) (n : Nesting) :
    (n.modifyStatement fun s => { s with endsExpression := k.endsExpression }).Agrees
      (n.settle k text) := by
  unfold settle
  extract_lets allowed m
  have hm : n.Agrees m := ⟨rfl, rfl, rfl⟩
  split
  · exact absurd (Or.inl rfl) hk
  · exact absurd (Or.inr rfl) hk
  · exact hm.modifyStatement _

end

/-- What the lexeme that the character `c` begins in front of the text `t` **does to the levels** of a
nesting, at the offset `o`. -/
inductive LevelStep (lines : LineMap) (n : Nesting) (o : Nat) (c : Char) (t : Text) (r : Reading) :
    Prop
  /-- It acts on the current statement. -/
  | within (nesting : (n.modifyStatement (Statement.take n.breaksEndStatements
      (Lexeme.read c t))).Agrees r.nesting)
  /-- It opens a level that is no hole. -/
  | opening {k : LexemeKind} {p : Opener} (kind : (Lexeme.read c t).kind = some k)
      (opens : k.opens) (opener : ∀ u s, p ≠ .hole u s)
      (nesting : ((n.modifyStatement (Statement.meet k)).openLevel p).Agrees r.nesting)
  /-- It closes the innermost level, which is no hole. -/
  | closing {k : LexemeKind} {l : Level} {ls : List Level}
      (kind : (Lexeme.read c t).kind = some k) (closes : k.endsExpression)
      (levels : n.levels = l :: ls) (opener : ∀ u s, l.opener ≠ .hole u s)
      (nesting : ({ n with levels := ls }.modifyStatement Statement.endExpression).Agrees r.nesting)
  /-- It starts a template. -/
  | template {m : Nesting} (char : c = '\x60')
      (nesting : (n.modifyStatement (Statement.meet .backtick)).Agrees m)
      (read : readLiteral lines
        { chain := n.chain, opening := o, leadingComments := m.leadingComments } ⟨m, o + 1, t⟩ =
          .ok r)
  /-- It closes the innermost hole, and its template goes on. -/
  | hole {m : Nesting} {u : Unclosed} {s : Nat} {st : Statement} {ls : List Level} (char : c = '}')
      (levels : n.levels = ⟨.hole u s, st⟩ :: ls) (nesting : { n with levels := ls }.Agrees m)
      (read : readLiteral lines (u.addHole ⟨⟨s, o⟩, lines.position s⟩) ⟨m, o + 1, t⟩ = .ok r)

/-! ### Lexemes -/

section

variable {lines : LineMap} {n m : Nesting} {o start : Nat} {c : Char} {t text : Text}
  {k : LexemeKind} {r s : Reading}

/-- A template that is closed ends an expression. -/
theorem agrees_closeTemplate (u : Unclosed) (stop : Nat) (n : Nesting) :
    ({ n with closed := n.closed ++ (u.close? stop).toList }.modifyStatement
      Statement.endExpression).Agrees (n.closeTemplate u stop) := by
  have hm : { n with closed := n.closed ++ (u.close? stop).toList }.Agrees
      { n.dropChain with closed := n.closed ++ (u.close? stop).toList } := ⟨rfl, rfl, rfl⟩
  have hbacktick : ¬(LexemeKind.backtick = .semicolon ∨ LexemeKind.backtick = .comma) := by simp
  exact (hm.modifyStatement _).trans (agrees_settle hbacktick [] _)

/-- A lexeme that is no separator acts on the current statement if nothing but that is changed before
it settles. -/
theorem agrees_act (hk : ¬(k = .semicolon ∨ k = .comma))
    (hm : (n.modifyStatement (Statement.meet k)).Agrees m) :
    (n.modifyStatement (Statement.act k)).Agrees (m.settle k text) := by
  have hact : Statement.act k =
      (fun s => { s with endsExpression := k.endsExpression }) ∘ Statement.meet k := by
    funext s
    simp [Statement.act, hk]
  rw [hact, ← modifyStatement_modifyStatement]
  exact (hm.modifyStatement _).trans (agrees_settle hk text m)

/-- A separator ends the current statement. -/
theorem agrees_act_of_separates (hk : k = .semicolon ∨ k = .comma) (text : Text) :
    (n.modifyStatement (Statement.act k)).Agrees
      (((n.modifyStatement (Statement.meet k)).dropChain.modifyStatement Statement.finish).settle k
        text) := by
  have hact : Statement.act k = Statement.finish ∘ Statement.meet k := by
    funext s
    simp [Statement.act, hk]
  rw [hact, ← modifyStatement_modifyStatement]
  have hdrop : (n.modifyStatement (Statement.meet k)).Agrees
      (n.modifyStatement (Statement.meet k)).dropChain := ⟨rfl, rfl, rfl⟩
  exact (hdrop.modifyStatement _).trans (agrees_settle_of_separates hk text _)

/-- A closing bracket closes the innermost level, or acts on the current statement as any lexeme
does. -/
theorem closeLevel_cases (hk : k.endsExpression) (n : Nesting) :
    (n.modifyStatement (Statement.act k)).Agrees
        (((n.modifyStatement (Statement.meet k)).closeLevel k).settle k text) ∨
      ∃ l ls, n.levels = l :: ls ∧ (∀ u s, l.opener ≠ .hole u s) ∧
        ({ n with levels := ls }.modifyStatement Statement.endExpression).Agrees
          (((n.modifyStatement (Statement.meet k)).closeLevel k).settle k text) := by
  have hsep : ¬(k = .semicolon ∨ k = .comma) := by
    rintro (rfl | rfl) <;> simp [LexemeKind.endsExpression] at hk
  have hend : (fun s : Statement => { s with endsExpression := k.endsExpression }) =
      Statement.endExpression := by
    funext s
    rw [hk, Statement.endExpression]
  cases hl : n.levels with
  | nil =>
      refine Or.inl (agrees_act hsep ?_)
      simp only [closeLevel, modifyStatement, hl]
      exact ⟨rfl, rfl, rfl⟩
  | cons l ls =>
      -- What the level below becomes does not depend on what the lexeme did to the one it closes.
      have hclose : ∀ c, ({ n with levels := ls }.modifyStatement Statement.endExpression).Agrees
          (settle k text { n with levels := ls, chain := c, afterDot := false }) := by
        intro c
        have hleft : { n with levels := ls }.Agrees
            { n with levels := ls, chain := c, afterDot := false } := ⟨rfl, rfl, rfl⟩
        have hsettle := agrees_settle hsep text { n with levels := ls, chain := c, afterDot := false }
        rw [hend] at hsettle
        exact (hleft.modifyStatement _).trans hsettle
      have hact : (n.modifyStatement (Statement.act k)).Agrees
          ((n.modifyStatement (Statement.meet k)).settle k text) := agrees_act hsep (.refl _)
      simp only [modifyStatement, hl] at hact
      simp only [closeLevel, modifyStatement, hl]
      split
      · next h => exact Or.inr ⟨l, ls, rfl, by simp [h], hclose _⟩
      · next h => exact Or.inr ⟨l, ls, rfl, by simp [h], hclose _⟩
      · next h => exact Or.inr ⟨l, ls, rfl, by simp [h], hclose _⟩
      · exact Or.inl hact

/-- A change to the statement leaves the openers of the levels as they are. -/
theorem exists_levels_of_modifyStatement {f : Statement → Statement} {p : Opener} {st : Statement}
    {ls : List Level} (h : (n.modifyStatement f).levels = ⟨p, st⟩ :: ls) :
    ∃ st, n.levels = ⟨p, st⟩ :: ls := by
  cases hl : n.levels with
  | nil => simp [modifyStatement, hl] at h
  | cons l ls' =>
      simp only [modifyStatement, hl, List.cons.injEq, Level.mk.injEq] at h
      obtain ⟨⟨rfl, -⟩, rfl⟩ := h
      exact ⟨l.statement, rfl⟩

/-- Acting on a lexeme that is not trivia. -/
theorem levelStep_of_readCode (hk : (Lexeme.read c t).kind = some k)
    (htrivia : k.isTrivia = false)
    (h : readCode lines k (Lexeme.read c t).text o
      ⟨n, o + Text.byteSize (Lexeme.read c t).text, Lexeme.rest c t⟩ = .ok s) :
    n.LevelStep lines o c t s := by
  have htake : Statement.take n.breaksEndStatements (Lexeme.read c t) = Statement.act k := by
    funext st
    rw [Statement.take, hk]
    cases k <;> first | rfl | contradiction
  have hwithin : (n.modifyStatement (Statement.act k)).Agrees s.nesting →
      n.LevelStep lines o c t s := fun hs => .within (by rw [htake]; exact hs)
  have hcode : ∀ {m : Nesting}, ¬(k = .semicolon ∨ k = .comma) →
      s.nesting = m.settle k (Lexeme.read c t).text →
      (n.modifyStatement (Statement.meet k)).Agrees m → n.LevelStep lines o c t s :=
    fun hsep hs hm => hwithin (hs ▸ agrees_act hsep hm)
  have hcloses : k.endsExpression → s.nesting =
      ((n.modifyStatement (Statement.meet k)).closeLevel k).settle k (Lexeme.read c t).text →
      n.LevelStep lines o c t s := by
    intro hends hs
    rcases closeLevel_cases hends n with hact | ⟨l, ls, hl, ho, hleft⟩
    · exact hwithin (hs ▸ hact)
    · exact .closing hk hends hl ho (hs ▸ hleft)
  have hopens : ∀ p : Opener, k.opens → (∀ u s, p ≠ .hole u s) → s.nesting =
      ((n.modifyStatement (Statement.meet k)).openLevel p).settle k (Lexeme.read c t).text →
      n.LevelStep lines o c t s := by
    intro p hk' hp hs
    refine .opening hk hk' hp ?_
    have hends : k.endsExpression = false := by cases k <;> first | rfl | contradiction
    have hsep : ¬(k = .semicolon ∨ k = .comma) := by rintro (rfl | rfl) <;> contradiction
    have hsettle := agrees_settle hsep (Lexeme.read c t).text
      ((n.modifyStatement (Statement.meet k)).openLevel p)
    rw [hs]
    simpa only [modifyStatement, openLevel, hends] using hsettle
  simp only [readCode] at h
  split at h
  · cases h; exact hcode (by simp) rfl ⟨rfl, rfl, rfl⟩
  · cases h; exact hcode (by simp) rfl ⟨rfl, rfl, rfl⟩
  · cases h; exact hcode (by simp) rfl ⟨rfl, rfl, rfl⟩
  · cases h; exact hcode (by simp) rfl ⟨rfl, rfl, rfl⟩
  · cases h; exact hopens _ rfl (by simp) rfl
  · cases h; exact hopens _ rfl (by simp) rfl
  · cases h; exact hopens _ rfl (by simp) rfl
  · cases h; exact hcloses rfl rfl
  · cases h; exact hcloses rfl rfl
  · split at h
    · next u holeStart st ls hl =>
        obtain rfl := eq_of_kind_closeBrace hk
        obtain ⟨st, hlevels⟩ := exists_levels_of_modifyStatement hl
        have hbase : (n.modifyStatement (Statement.meet .closeBrace)).base = n.base := by
          rw [modifyStatement, hlevels]
        refine .hole rfl hlevels ?_ h
        exact ⟨hbase, rfl, closed_modifyStatement _ n⟩
    · cases h; exact hcloses rfl rfl
  · obtain rfl := eq_of_kind_backtick hk
    rw [Nesting.chain_modifyStatement] at h
    exact .template rfl ⟨rfl, rfl, rfl⟩ h
  · cases h; exact hcode (by simp) rfl ⟨rfl, rfl, rfl⟩
  · split at h
    · cases h; exact hcode (by simp) rfl (.refl _)
    · cases h; exact hcode (by simp) rfl ⟨rfl, rfl, rfl⟩
  · cases h; exact hwithin (agrees_act_of_separates (Or.inl rfl) (Lexeme.read c t).text)
  · cases h; exact hwithin (agrees_act_of_separates (Or.inr rfl) (Lexeme.read c t).text)
  · cases h
    exact hcode (by simp_all) rfl ⟨rfl, rfl, rfl⟩

/-- **What reading a lexeme does to the levels.** -/
theorem levelStep_of_readLexeme (h : readLexeme lines n o c t = .ok r) :
    n.LevelStep lines o c t r := by
  have hwithin : ∀ {f : Statement → Statement}, (n.modifyStatement f).Agrees r.nesting →
      Statement.take n.breaksEndStatements (Lexeme.read c t) = f → n.LevelStep lines o c t r :=
    fun hf htake => .within (htake ▸ hf)
  simp only [readLexeme] at h
  split at h
  · next hk =>
      cases h
      refine hwithin ((agrees_modifyStatement_id n).trans ⟨rfl, rfl, rfl⟩) ?_
      funext s
      simp only [Statement.take, hk, id_eq]
  · next hk =>
      cases h
      refine hwithin (agrees_modifyStatement_id n) ?_
      funext s
      simp only [Statement.take, hk, id_eq]
  · next hk =>
      cases h
      refine hwithin (agrees_modifyStatement_id n) ?_
      funext s
      simp only [Statement.take, hk, id_eq]
  · next hk =>
      cases h
      refine hwithin (agrees_breakLine n) ?_
      funext s
      simp only [Statement.take, hk]
  · next hk =>
      cases h
      refine hwithin (.refl _) ?_
      funext s
      simp only [Statement.take, hk]
  · next k hblanks hblock hbreak hline hk =>
      refine levelStep_of_readCode hk ?_ h
      cases k <;> first | rfl | simp_all

end

end Nesting

end StyleBlocks.Template
