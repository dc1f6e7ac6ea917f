import StyleBlocks.Proofs.Template.LevelSteps

/-!
# Open statements

What is known of the statements of the open levels while code is read. A statement below the innermost
level is in the middle of an expression: it is open, no line break is being waited out, and no comment
is pending. In the innermost level comments can be pending only where no statement is open, or where
the open one may have ended.

While a statement lasts, the levels below it stay as they are and its own leading comments do too, so
every template that is read meanwhile is led by them.

## Main results

* `tidy_of_reaches`: what is known of the statements wherever reading comes.
* `statement_readLexeme`: the innermost statement behind a lexeme of its level.
* `lasts_of_during`: templates that are read while a statement lasts.
-/

namespace StyleBlocks.Template

/-- Reading **reaches** a place from another one, lexeme by lexeme. -/
inductive Reading.Reaches (lines : LineMap) (r : Reading) : Reading → Prop
  | refl : Reaches lines r r
  | step {n : Nesting} {o : Nat} {c : Char} {t : Text} {s : Reading}
      (reaches : Reaches lines r ⟨n, o, c :: t⟩) (read : readLexeme lines n o c t = .ok s) :
      Reaches lines r s

/-! ### Statements -/

namespace Statement

/-- Comments are pending only where no statement is open or the open one may have ended. -/
def IsTidy (s : Statement) : Prop :=
  s.isOpen → s.mayHaveEnded = false → s.pending = []

/-- A statement is **under way**: it is open and goes on with whatever follows. -/
structure IsUnderWay (s : Statement) : Prop where
  isOpen : s.isOpen
  mayHaveEnded : s.mayHaveEnded = false
  pending : s.pending = []

/-- A lexeme **ends** a statement: a separator does, and so does code that does not carry it on where it
may have ended. -/
def IsEndedBy (k : LexemeKind) (s : Statement) : Prop :=
  k = .semicolon ∨ k = .comma ∨ s.mayHaveEnded ∧ k.isTrivia = false ∧ k.continuesStatement = false

section

variable {s : Statement} {k : LexemeKind} {l : Lexeme} {b : Bool}

/-- A statement that is under way is tidy. -/
theorem IsUnderWay.isTidy (h : s.IsUnderWay) : s.IsTidy :=
  fun _ _ => h.pending

/-- A statement that is under way still is when an expression in it has ended. -/
theorem IsUnderWay.endExpression (h : s.IsUnderWay) : s.endExpression.IsUnderWay :=
  ⟨h.isOpen, h.mayHaveEnded, h.pending⟩

/-- Where a lexeme has been taken note of, the statement is under way. -/
theorem IsTidy.meet (h : s.IsTidy) (k : LexemeKind) : (s.meet k).IsUnderWay := by
  rw [Statement.meet, start]
  cases hended : s.mayHaveEnded
  · simp only [Bool.false_eq_true, if_false]
    split
    · next ho => exact ⟨ho, hended, h ho hended⟩
    · exact ⟨rfl, hended, rfl⟩
  · simp only [if_true]
    cases k.continuesStatement
    · exact ⟨rfl, rfl, rfl⟩
    · simp only [if_true]
      split
      · next ho => exact ⟨ho, rfl, rfl⟩
      · exact ⟨rfl, rfl, rfl⟩

/-- A lexeme that is no separator leaves the statement under way. -/
theorem IsTidy.act (h : s.IsTidy) (hk : ¬(k = .semicolon ∨ k = .comma)) :
    (s.act k).IsUnderWay ∧ (s.act k).endsExpression = k.endsExpression := by
  obtain ⟨ho, hended, hpending⟩ := h.meet k
  rw [Statement.act, if_neg hk]
  exact ⟨⟨ho, hended, hpending⟩, rfl⟩

/-- **Every lexeme keeps a statement tidy.** -/
theorem IsTidy.take (h : s.IsTidy) (b : Bool) (l : Lexeme) : (s.take b l).IsTidy := by
  rw [Statement.take]
  split
  · exact h
  · exact h
  · exact h
  · split
    · rw [breakLine]
      split
      · exact fun _ hended => absurd hended (by simp)
      · exact h
    · exact h
  · rw [comment]
    split
    · next hc =>
        intro ho hended
        simp_all
    · exact h
  · next k _ _ _ _ _ =>
      by_cases hk : k = .semicolon ∨ k = .comma
      · rw [Statement.act, if_pos hk]
        exact fun ho => absurd ho (by simp [finish])
      · exact (h.act hk).1.isTidy

/-- A lexeme that does not end an open statement leaves it open, led by the same comments. -/
theorem meet_eq_of_not_isEndedBy (ho : s.isOpen) (htrivia : k.isTrivia = false)
    (h : ¬s.IsEndedBy k) : (s.meet k).isOpen ∧ (s.meet k).leading = s.leading := by
  simp only [IsEndedBy, htrivia, true_and, not_or, not_and, Bool.not_eq_false] at h
  rw [Statement.meet, start]
  cases hended : s.mayHaveEnded
  · simp [ho]
  · simp [h.2.2 hended, ho]

/-- **A lexeme that does not end an open statement** leaves it open, led by the same comments. -/
theorem take_eq_of_not_isEndedBy (ho : s.isOpen) (h : ∀ k ∈ l.kind, ¬s.IsEndedBy k) :
    (s.take b l).isOpen ∧ (s.take b l).leading = s.leading := by
  rw [Statement.take]
  split
  · exact ⟨ho, rfl⟩
  · exact ⟨ho, rfl⟩
  · exact ⟨ho, rfl⟩
  · split
    · rw [breakLine]
      split <;> exact ⟨ho, rfl⟩
    · exact ⟨ho, rfl⟩
  · rw [comment]
    split <;> exact ⟨ho, rfl⟩
  · next k _ _ _ _ hk =>
      have hk' := h k hk
      have hsep : ¬(k = .semicolon ∨ k = .comma) := fun hsep => hk' (by
        rcases hsep with rfl | rfl
        · exact Or.inl rfl
        · exact Or.inr (Or.inl rfl))
      have htrivia : k.isTrivia = false := by cases k <;> first | rfl | contradiction
      rw [Statement.act, if_neg hsep]
      exact meet_eq_of_not_isEndedBy ho htrivia hk'

end

end Statement

/-! ### The statements of all levels -/

namespace Nesting

/-- The statements of the levels, innermost first, and that of the program as a whole. -/
def statements (n : Nesting) : List Statement :=
  n.levels.map Level.statement ++ [n.base]

/-- The **invariant of statements**: comments are pending only where they should be, and the statements
below the innermost level are under way. -/
structure Tidy (n : Nesting) : Prop where
  statement : n.statement.IsTidy
  below : ∀ s ∈ n.statements.tail, s.IsUnderWay

/-- The statements of all levels are under way. -/
def UnderWay (n : Nesting) : Prop :=
  ∀ s ∈ n.statements, s.IsUnderWay

section

variable {n m : Nesting} {f : Statement → Statement} {k : LexemeKind} {p : Opener} {l : Level}
  {ls : List Level} {u : Unclosed} {o : Nat}

/-- The innermost statement is the first one. -/
theorem statements_eq (n : Nesting) : n.statements = n.statement :: n.statements.tail := by
  cases hl : n.levels <;> simp [statements, statement, hl]

/-- A change to the statement changes the first one only. -/
theorem statements_modifyStatement (f : Statement → Statement) (n : Nesting) :
    (n.modifyStatement f).statements = f n.statement :: n.statements.tail := by
  cases hl : n.levels <;> simp [statements, statement, modifyStatement, hl]

/-- Agreeing nestings have the same statements. -/
theorem Agrees.statements_eq (h : n.Agrees m) : m.statements = n.statements := by
  rw [statements, h.levels, h.base, statements]

/-- Agreeing nestings have the same innermost statement. -/
theorem Agrees.statement_eq (h : n.Agrees m) : m.statement = n.statement := by
  rw [statement, h.levels, h.base, statement]

/-- The statements below the innermost level are those of the levels that are left without it. -/
theorem tail_statements (hl : n.levels = l :: ls) :
    n.statements.tail = { n with levels := ls }.statements := by
  rw [statements, hl]
  rfl

/-- Where all statements are under way, they are tidy. -/
theorem UnderWay.tidy (h : n.UnderWay) : n.Tidy := by
  rw [UnderWay, statements_eq, List.forall_mem_cons] at h
  exact ⟨h.1.isTidy, h.2⟩

/-- Where all statements are under way, the innermost one is. -/
theorem UnderWay.statement (h : n.UnderWay) : n.statement.IsUnderWay :=
  h _ (by rw [statements_eq]; exact List.mem_cons_self)

/-- A nesting that agrees with one whose statements are under way has them under way. -/
theorem UnderWay.agrees (h : n.UnderWay) (hm : n.Agrees m) : m.UnderWay := by
  rw [UnderWay, hm.statements_eq]
  exact h

/-- All statements stay under way if the innermost one does. -/
theorem UnderWay.modifyStatement (h : n.UnderWay) (hf : (f n.statement).IsUnderWay) :
    (n.modifyStatement f).UnderWay := by
  rw [UnderWay, statements_eq, List.forall_mem_cons] at h
  rw [UnderWay, statements_modifyStatement, List.forall_mem_cons]
  exact ⟨hf, h.2⟩

/-- A template that is closed ends an expression of a statement that goes on. -/
theorem UnderWay.closeTemplate (h : n.UnderWay) (u : Unclosed) (stop : Nat) :
    (n.closeTemplate u stop).UnderWay := by
  have hclosed : UnderWay { n with closed := n.closed ++ (u.close? stop).toList } := h
  exact (hclosed.modifyStatement hclosed.statement.endExpression).agrees
    (agrees_closeTemplate u stop n)

/-- In a new level no statement is open. -/
theorem UnderWay.openLevel (h : n.UnderWay) (p : Opener) : (n.openLevel p).Tidy :=
  ⟨fun ho => absurd ho (by simp [Nesting.statement, Nesting.openLevel]), h⟩

namespace Tidy

/-- The invariant holds at the start. -/
theorem init : Tidy {} :=
  ⟨fun ho => absurd ho (by simp [Nesting.statement]), by simp [statements]⟩

/-- A nesting that agrees with a tidy one is tidy. -/
theorem agrees (h : n.Tidy) (hm : n.Agrees m) : m.Tidy := by
  refine ⟨hm.statement_eq ▸ h.statement, ?_⟩
  rw [hm.statements_eq]
  exact h.below

/-- A change to the innermost statement keeps the invariant if that stays tidy. -/
theorem modifyStatement (h : n.Tidy) (hf : (f n.statement).IsTidy) : (n.modifyStatement f).Tidy := by
  refine ⟨by rw [statement_modifyStatement]; exact hf, ?_⟩
  rw [statements_modifyStatement]
  exact h.below

/-- Where a lexeme is met that is not trivia, all statements are under way. -/
theorem meet (h : n.Tidy) (k : LexemeKind) : (n.modifyStatement (Statement.meet k)).UnderWay := by
  rw [UnderWay, statements_modifyStatement, List.forall_mem_cons]
  exact ⟨h.statement.meet k, h.below⟩

/-- Without the innermost level all statements are under way. -/
theorem tail (h : n.Tidy) (hl : n.levels = l :: ls) : UnderWay { n with levels := ls } := by
  have hbelow := h.below
  rw [tail_statements hl] at hbelow
  exact hbelow

end Tidy

end

end Nesting

/-! ### Steps -/

section

variable {lines : LineMap} {n : Nesting} {u : Unclosed} {o : Nat} {c : Char} {t : Text}
  {k : LexemeKind} {r s : Reading}

/-- **Behind a literal part** a new hole begins, or an expression has ended. -/
theorem readLiteral_underWay (h : n.UnderWay) (hr : readLiteral lines u ⟨n, o, t⟩ = .ok r) :
    r.nesting.Tidy ∧ (r.nesting.breaksEndStatements →
      r.nesting.statement.IsUnderWay ∧ r.nesting.statement.endsExpression) := by
  obtain ⟨raw, rest, -, hend⟩ := readLiteral_cases hr
  rcases hend with ⟨-, rfl⟩ | ⟨-, rfl⟩
  · refine ⟨(h.closeTemplate _ _).tidy, fun _ => ⟨(h.closeTemplate _ _).statement, ?_⟩⟩
    rw [(Nesting.agrees_closeTemplate _ _ n).statement_eq, Nesting.statement_modifyStatement]
    rfl
  · refine ⟨(h.openLevel _).agrees ⟨rfl, rfl, rfl⟩, fun hbreaks => ?_⟩
    simp [Nesting.breaksEndStatements, Nesting.openHole, Nesting.openLevel] at hbreaks

/-- **Reading a lexeme keeps the invariant.** -/
theorem tidy_readLexeme (h : n.Tidy) (hr : readLexeme lines n o c t = .ok r) : r.nesting.Tidy := by
  cases Nesting.levelStep_of_readLexeme hr with
  | within hm => exact (h.modifyStatement (h.statement.take _ _)).agrees hm
  | opening _ _ _ hm => exact ((h.meet _).openLevel _).agrees hm
  | closing _ _ hlevels _ hm =>
      have hleft := h.tail hlevels
      exact ((hleft.modifyStatement hleft.statement.endExpression).agrees hm).tidy
  | template _ hm hread => exact (readLiteral_underWay ((h.meet _).agrees hm) hread).1
  | hole _ hlevels hm hread => exact (readLiteral_underWay ((h.tail hlevels).agrees hm) hread).1

/-- **Wherever reading comes** the statements are as they should be. -/
theorem tidy_of_reaches (h : r.nesting.Tidy) (hs : r.Reaches lines s) : s.nesting.Tidy := by
  induction hs with
  | refl => exact h
  | step _ hread ih => exact tidy_readLexeme ih hread

/-- **Behind a lexeme of code** that is no separator and opens no level, the statement is under way if
line breaks can end it there, and knows if an expression can end there. -/
theorem statement_readLexeme (h : n.Tidy) (hk : (Lexeme.read c t).kind = some k)
    (htrivia : k.isTrivia = false) (hsep : ¬(k = .semicolon ∨ k = .comma)) (hopens : k.opens = false)
    (hr : readLexeme lines n o c t = .ok r) (hbreaks : r.nesting.breaksEndStatements) :
    r.nesting.statement.IsUnderWay ∧ r.nesting.statement.endsExpression = k.endsExpression := by
  cases Nesting.levelStep_of_readLexeme hr with
  | within hm =>
      have htake : n.statement.take n.breaksEndStatements (Lexeme.read c t) = n.statement.act k := by
        rw [Statement.take, hk]
        cases k <;> first | rfl | contradiction
      rw [hm.statement_eq, Nesting.statement_modifyStatement, htake]
      exact h.statement.act hsep
  | opening hk' hopens' =>
      obtain rfl : k = _ := Option.some.inj (hk.symm.trans hk')
      rw [hopens'] at hopens
      contradiction
  | closing hk' hends hlevels _ hm =>
      obtain rfl : k = _ := Option.some.inj (hk.symm.trans hk')
      rw [hm.statement_eq, Nesting.statement_modifyStatement, hends]
      exact ⟨(h.tail hlevels).statement.endExpression, rfl⟩
  | template hc hm hread =>
      subst hc
      obtain rfl : .backtick = k := Option.some.inj hk
      exact (readLiteral_underWay ((h.meet _).agrees hm) hread).2 hbreaks
  | hole hc hlevels hm hread =>
      subst hc
      obtain rfl : .closeBrace = k := Option.some.inj hk
      exact (readLiteral_underWay ((h.tail hlevels).agrees hm) hread).2 hbreaks

end

/-! ### While a statement lasts -/

/-- Reading goes on **during** the current statement of a place: its level stays open, and no lexeme
that stands in the level ends the statement. -/
inductive Reading.During (lines : LineMap) (r : Reading) : Reading → Prop
  | refl : During lines r r
  | step {n : Nesting} {o : Nat} {c : Char} {t : Text} {s : Reading}
      (during : During lines r ⟨n, o, c :: t⟩)
      (goesOn : n.levels.length = r.nesting.levels.length →
        ∀ k ∈ (Lexeme.read c t).kind, ¬n.statement.IsEndedBy k)
      (read : readLexeme lines n o c t = .ok s)
      (isOpen : r.nesting.levels.length ≤ s.nesting.levels.length) : During lines r s

namespace Nesting

/-- The nesting without the levels above some of them. -/
def downTo (ls : List Level) (n : Nesting) : Nesting :=
  { n with levels := ls }

/-- A statement **lasts** in the innermost one of some levels, led together with those below by the
given comments; since it was opened other levels have been opened above, and these comments lead all
templates that have been opened since. -/
structure Lasts (comments : List Text) (ts : List Tagged) (above ls : List Level) (n : Nesting) :
    Prop where
  levels : n.levels = above ++ ls
  breaks : (n.downTo ls).breaksEndStatements
  isOpen : (n.downTo ls).statement.isOpen
  leading : (n.downTo ls).leadingComments = comments
  holes : ∀ u s, .hole u s ∈ above.map Level.opener → comments <+: u.leadingComments
  closed : ∃ us, n.closed = ts ++ us ∧ ∀ t ∈ us, comments <+: t.leadingComments

section

variable {comments : List Text} {ts : List Tagged} {above ls : List Level} {l : Level}
  {n m : Nesting} {f : Statement → Statement} {p : Opener} {u : Unclosed} {s stop : Nat}

namespace Lasts

/-- A statement that lasts does so in every nesting that agrees. -/
theorem agrees (h : n.Lasts comments ts above ls) (hm : n.Agrees m) :
    m.Lasts comments ts above ls := by
  have hdown : (n.downTo ls).Agrees (m.downTo ls) := ⟨hm.base, rfl, hm.closed⟩
  refine ⟨hm.levels.trans h.levels, h.breaks, hdown.statement_eq ▸ h.isOpen,
    hdown.leadingComments_eq.trans h.leading, h.holes, hm.closed ▸ h.closed⟩

/-- What leads the statement leads whatever is read while it lasts. -/
theorem isPrefix (h : n.Lasts comments ts above ls) : comments <+: n.leadingComments := by
  have hleading : leadingOf n.base ls = comments := h.leading
  have hall : n.leadingComments = leadingOf n.base (above ++ ls) := by rw [← h.levels]; rfl
  rw [hall, ← hleading, leadingOf, leadingOf, List.reverse_append, List.flatMap_append,
    ← List.append_assoc]
  exact List.prefix_append _ _

/-- While no level is open above it, the statement is the current one. -/
theorem statement_isOpen (h : n.Lasts comments ts [] ls) : n.statement.isOpen := by
  obtain ⟨base, levels, chain, afterDot, regexAllowed, closed⟩ := n
  obtain ⟨rfl, -, hopen, -⟩ := h
  exact hopen

/-- A statement lasts when a level is opened in it. -/
theorem openLevel (h : n.Lasts comments ts above ls)
    (hp : ∀ u s, p = .hole u s → comments <+: u.leadingComments) :
    (n.openLevel p).Lasts comments ts ({ opener := p } :: above) ls where
  levels := by simp [Nesting.openLevel, h.levels]
  breaks := h.breaks
  isOpen := h.isOpen
  leading := h.leading
  holes u s hu := by
    rcases List.mem_cons.1 hu with hu | hu
    · exact hp u s hu.symm
    · exact h.holes u s hu
  closed := h.closed

/-- One of the levels above is left. -/
theorem tail (h : n.Lasts comments ts (l :: above) ls) :
    (n.downTo (above ++ ls)).Lasts comments ts above ls where
  levels := rfl
  breaks := h.breaks
  isOpen := h.isOpen
  leading := h.leading
  holes u s hu := h.holes u s (List.mem_cons_of_mem _ hu)
  closed := h.closed

/-- A change of the current statement that leaves it open, led by the same comments. -/
theorem modifyStatement (h : n.Lasts comments ts above ls)
    (hf : above = [] → (f n.statement).isOpen ∧ (f n.statement).leading = n.statement.leading) :
    ∃ above' ls', ls'.length = ls.length ∧
      (n.modifyStatement f).Lasts comments ts above' ls' := by
  obtain ⟨base, levels, chain, afterDot, regexAllowed, closed⟩ := n
  obtain ⟨rfl, hbreaks, hopen, hleading, hholes, hclosed⟩ := h
  match above, ls with
  | [], [] =>
      obtain ⟨ho, hsame⟩ := hf rfl
      refine ⟨[], [], rfl, rfl, hbreaks, ho, ?_, by simp, hclosed⟩
      rw [← hleading]
      exact congrArg (· ++ []) hsame
  | [], l :: ls =>
      obtain ⟨ho, hsame⟩ := hf rfl
      refine ⟨[], { l with statement := f l.statement } :: ls, rfl, rfl, hbreaks, ho, ?_, by simp,
        hclosed⟩
      rw [← hleading]
      have hsame : (f l.statement).leading = l.statement.leading := hsame
      change leadingOf base (_ :: ls) = leadingOf base (l :: ls)
      rw [leadingOf_cons, leadingOf_cons, hsame]
  | a :: above, ls =>
      exact ⟨{ a with statement := f a.statement } :: above, ls, rfl, rfl, hbreaks, hopen, hleading,
        hholes, hclosed⟩

/-- A template that is closed is led by what led it when it was opened. -/
theorem closeTemplate (h : n.Lasts comments ts above ls) (hu : comments <+: u.leadingComments) :
    ∃ above' ls', ls'.length = ls.length ∧
      (n.closeTemplate u stop).Lasts comments ts above' ls' := by
  have hclosed : Lasts comments ts above ls
      { n with closed := n.closed ++ (u.close? stop).toList } := by
    obtain ⟨hlevels, hbreaks, hopen, hleading, hholes, us, hus, hled⟩ := h
    refine ⟨hlevels, hbreaks, hopen, hleading, hholes, us ++ (u.close? stop).toList, ?_, ?_⟩
    · rw [hus, List.append_assoc]
    · intro t ht
      rcases List.mem_append.1 ht with ht | ht
      · exact hled t ht
      · obtain ⟨c, -, rfl⟩ := Option.map_eq_some_iff.1 (Option.mem_toList.1 ht)
        exact hu
  obtain ⟨above', ls', hlength, hlasts⟩ := hclosed.modifyStatement (f := Statement.endExpression)
    fun hnil => ⟨(hnil ▸ h).statement_isOpen, rfl⟩
  exact ⟨above', ls', hlength, hlasts.agrees (agrees_closeTemplate u stop n)⟩

/-- The first place of a statement that lasts. -/
theorem start (hbreaks : n.breaksEndStatements) (ho : n.statement.isOpen) :
    n.Lasts n.leadingComments n.closed [] n.levels :=
  ⟨rfl, hbreaks, ho, rfl, by simp, [], by simp, by simp⟩

end Lasts

end

end Nesting

section

variable {lines : LineMap} {comments : List Text} {ts : List Tagged} {above ls : List Level}
  {n : Nesting} {u : Unclosed} {o : Nat} {c : Char} {t : Text} {r s : Reading}

/-- A statement lasts over a literal part of a template that its comments lead. -/
theorem lasts_readLiteral (h : n.Lasts comments ts above ls) (hu : comments <+: u.leadingComments)
    (hr : readLiteral lines u ⟨n, o, t⟩ = .ok r) :
    ∃ above' ls', ls'.length = ls.length ∧ r.nesting.Lasts comments ts above' ls' := by
  obtain ⟨raw, rest, -, hend⟩ := readLiteral_cases hr
  rcases hend with ⟨-, rfl⟩ | ⟨-, rfl⟩
  · exact h.closeTemplate (u := u.addQuasi _) hu
  · refine ⟨_, ls, rfl, (h.openLevel fun v s hv => ?_).agrees ⟨rfl, rfl, rfl⟩⟩
    cases hv
    exact hu

/-- **A lexeme that does not end a statement lets it last.** -/
theorem lasts_readLexeme (h : n.Lasts comments ts above ls)
    (hgoes : above = [] → ∀ k ∈ (Lexeme.read c t).kind, ¬n.statement.IsEndedBy k)
    (hr : readLexeme lines n o c t = .ok r) (hopen : ls.length ≤ r.nesting.levels.length) :
    ∃ above' ls', ls'.length = ls.length ∧ r.nesting.Lasts comments ts above' ls' := by
  have hmeet : ∀ k, (Lexeme.read c t).kind = some k → k.isTrivia = false →
      ∃ above' ls', ls'.length = ls.length ∧
        (n.modifyStatement (Statement.meet k)).Lasts comments ts above' ls' :=
    fun k hk htrivia => h.modifyStatement fun hnil =>
      Statement.meet_eq_of_not_isEndedBy (hnil ▸ h).statement_isOpen htrivia (hgoes hnil k hk)
  cases Nesting.levelStep_of_readLexeme hr with
  | within hm =>
      obtain ⟨above', ls', hlength, hlasts⟩ := h.modifyStatement
        (f := Statement.take n.breaksEndStatements (Lexeme.read c t)) fun hnil =>
          Statement.take_eq_of_not_isEndedBy (hnil ▸ h).statement_isOpen (hgoes hnil)
      exact ⟨above', ls', hlength, hlasts.agrees hm⟩
  | @opening k p hk hopens hp hm =>
      obtain ⟨above', ls', hlength, hlasts⟩ := hmeet k hk (by cases k <;> first | rfl | contradiction)
      exact ⟨_, ls', hlength, (hlasts.openLevel fun u s hu => absurd hu (hp u s)).agrees hm⟩
  | @closing k l left hk hends hlevels ho hm =>
      match above with
      | [] =>
          obtain rfl : n.levels = ls := h.levels
          have hlength : r.nesting.levels.length = left.length := by
            simpa [Nesting.openers] using congrArg List.length (hm.openers_eq.trans
              (Nesting.openers_modifyStatement Statement.endExpression { n with levels := left }))
          rw [hlevels, hlength, List.length_cons] at hopen
          exact absurd hopen (Nat.not_succ_le_self _)
      | a :: above =>
          obtain ⟨rfl, rfl⟩ := List.cons.inj (hlevels.symm.trans h.levels)
          have htail := h.tail
          obtain ⟨above', ls', hlength, hlasts⟩ := htail.modifyStatement
            (f := Statement.endExpression) fun hnil => by
              subst hnil
              exact ⟨htail.statement_isOpen, rfl⟩
          exact ⟨above', ls', hlength, hlasts.agrees hm⟩
  | template hc hm hread =>
      subst hc
      obtain ⟨above', ls', hlength, hlasts⟩ := hmeet .backtick rfl rfl
      obtain ⟨above'', ls'', hlength', hlasts'⟩ :=
        lasts_readLiteral (hlasts.agrees hm) (hlasts.agrees hm).isPrefix hread
      exact ⟨above'', ls'', hlength'.trans hlength, hlasts'⟩
  | @hole m u s st left hc hlevels hm hread =>
      match above with
      | [] =>
          -- The level of the statement is no hole, for line breaks can end the statement.
          obtain rfl : n.levels = ls := h.levels
          have hbreaks := h.breaks
          simp [Nesting.breaksEndStatements, Nesting.downTo, hlevels] at hbreaks
      | a :: above =>
          obtain ⟨rfl, rfl⟩ := List.cons.inj (hlevels.symm.trans h.levels)
          have hu := h.holes u s (by simp)
          exact lasts_readLiteral (u := u.addHole _) (h.tail.agrees hm) hu hread

/-- **Every template that is read while a statement lasts** is led by what leads the statement. -/
theorem lasts_of_during (hbreaks : r.nesting.breaksEndStatements)
    (ho : r.nesting.statement.isOpen) (hs : r.During lines s) :
    ∃ above ls, ls.length = r.nesting.levels.length ∧
      s.nesting.Lasts r.nesting.leadingComments r.nesting.closed above ls := by
  induction hs with
  | refl => exact ⟨[], _, rfl, .start hbreaks ho⟩
  | step _ hgoes hread hopen ih =>
      obtain ⟨above, ls, hlength, hlasts⟩ := ih
      obtain ⟨above', ls', hlength', hlasts'⟩ := lasts_readLexeme hlasts
        (fun hnil => hgoes (by rw [hlasts.levels, hnil]; exact hlength)) hread (hlength ▸ hopen)
      exact ⟨above', ls', hlength'.trans hlength, hlasts'⟩

end

end StyleBlocks.Template
