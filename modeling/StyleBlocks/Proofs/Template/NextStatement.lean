import StyleBlocks.Proofs.Template.LexemeEnds
import StyleBlocks.Proofs.Template.OpenStatements

/-!
# Comments in front of the next statement

A line comment behind a line that ends in an operand leads the statement that starts on the next line:
the line break tells that the open statement may have ended, the name on the next line that it has.
What led the statement before leads nothing of the next one.

There is one exception. A regular expression is read as the slash that begins it, and a slash ends no
expression. Behind one the statement goes on over the line break, so the comment leads nothing, and what
led the statement leads what follows too.

## Main results

* `leading_of_nextStatement`: what leads the statement on the line behind a comment.
-/

namespace StyleBlocks.Template

/-- The ways to break a line. -/
def IsLineBreak (t : Text) : Prop :=
  t = ['\n'] ∨ t = ['\r', '\n'] ∨ t = ['\r']

/-- At the slash in front of some text a regular expression stands. -/
structure IsRegex (n : Nesting) (k : LexemeKind) (t : Text) : Prop where
  kind : k = .slash
  allowed : n.regexAllowed
  closes : (regexLength t).isSome

/-- The lexeme of the given kind **completes an operand**, in front of the text that is left behind its
first character. -/
def CompletesOperand (n : Nesting) (k : LexemeKind) (t : Text) : Prop :=
  k.endsExpression ∨ IsRegex n k t

/-- Reading reaches a place over blanks, line breaks and block comments only. -/
inductive Reading.Idles (lines : LineMap) (r : Reading) : Reading → Prop
  | refl : Idles lines r r
  | step {n : Nesting} {o : Nat} {c : Char} {t : Text} {s : Reading}
      (idles : Idles lines r ⟨n, o, c :: t⟩)
      (kind : (Lexeme.read c t).kind ∈ [some .blanks, some .lineBreak, some .blockComment])
      (read : readLexeme lines n o c t = .ok s) : Idles lines r s

namespace Statement

variable {s : Statement}

/-- A second line break tells nothing new. -/
theorem breakLine_breakLine (s : Statement) : s.breakLine.breakLine = s.breakLine := by
  simp only [breakLine]
  split <;> simp_all

/-- **What leads the statement on the line behind a comment**: the comment, if the line in front of it
ends in an expression, and what led the statement before if it does not. -/
theorem act_identifier (h : s.IsUnderWay) (text : Text) :
    (((s.breakLine.comment text).breakLine).act .identifier).IsUnderWay ∧
      (((s.breakLine.comment text).breakLine).act .identifier).leading =
        if s.endsExpression then [text] else s.leading := by
  obtain ⟨ho, hended, hpending⟩ := h
  cases hends : s.endsExpression
  · have hsame : (s.breakLine.comment text).breakLine = s := by
      simp [breakLine, comment, ho, hended, hends]
    rw [hsame]
    refine ⟨(IsUnderWay.isTidy ⟨ho, hended, hpending⟩ |>.act (by simp)).1, ?_⟩
    simp [act, meet, start, ho, hended]
  · have hnext : (s.breakLine.comment text).breakLine =
        { s with mayHaveEnded := true, pending := [text] } := by
      simp [breakLine, comment, ho, hends, hpending]
    rw [hnext]
    refine ⟨⟨rfl, rfl, rfl⟩, rfl⟩

end Statement

section

variable {lines : LineMap} {n m : Nesting} {o : Nat} {c d : Char} {t u v nl text : Text}
  {r s : Reading}

/-- What is reached from a place that is reached is reached. -/
theorem Reading.Reaches.trans {q : Reading} (h : q.Reaches lines r) (hs : r.Reaches lines s) :
    q.Reaches lines s := by
  induction hs with
  | refl => exact h
  | step _ hread ih => exact .step ih hread

/-- Reading a lexeme reaches the place behind it. -/
theorem Reading.Reaches.of_read (h : readLexeme lines n o c t = .ok s) :
    Reading.Reaches lines ⟨n, o, c :: t⟩ s :=
  .step .refl h

/-- A change to the statement leaves it as it is if line breaks can end statements. -/
theorem Nesting.breaksEndStatements_modifyStatement (f : Statement → Statement) (n : Nesting) :
    (n.modifyStatement f).breaksEndStatements = n.breaksEndStatements := by
  cases hl : n.levels <;> simp [Nesting.modifyStatement, Nesting.breaksEndStatements, hl]

/-- Line breaks can end statements in both of two nestings that agree, or in neither. -/
theorem Nesting.Agrees.breaksEndStatements_eq (h : n.Agrees m) :
    m.breaksEndStatements = n.breaksEndStatements := by
  rw [Nesting.breaksEndStatements, h.levels, Nesting.breaksEndStatements]

/-- Where line breaks can end statements, one is taken note of in the innermost one. -/
theorem Nesting.breakLine_eq (h : n.breaksEndStatements) :
    n.breakLine = n.modifyStatement Statement.breakLine := by
  rw [Nesting.breakLine, if_pos h]

/-- Idling changes nothing but that a line may have been broken. -/
theorem idles_cases (h : r.Idles lines s) (hbreaks : r.nesting.breaksEndStatements) :
    r.nesting.Agrees s.nesting ∨
      (r.nesting.modifyStatement Statement.breakLine).Agrees s.nesting := by
  induction h with
  | refl => exact Or.inl (.refl _)
  | @step n o c t s _ hkind hread ih =>
      have hstep : s.nesting = n ∨ s.nesting = n.breakLine := by
        simp only [readLexeme] at hread
        simp only [List.mem_cons, List.not_mem_nil, or_false] at hkind
        rcases hkind with hk | hk | hk <;> (rw [hk] at hread; cases hread; simp)
      rcases hstep with hs | hs
      · rw [hs]
        exact ih
      · rw [hs]
        refine Or.inr ?_
        rcases ih with hsame | hbroken
        · have hn : n.breaksEndStatements := hsame.breaksEndStatements_eq ▸ hbreaks
          rw [Nesting.breakLine_eq hn]
          exact hsame.modifyStatement _
        · have hn : n.breaksEndStatements := by
            rw [hbroken.breaksEndStatements_eq, Nesting.breaksEndStatements_modifyStatement]
            exact hbreaks
          have htwice := hbroken.modifyStatement Statement.breakLine
          rw [Nesting.modifyStatement_modifyStatement] at htwice
          rw [Nesting.breakLine_eq hn]
          have hcomp : Statement.breakLine ∘ Statement.breakLine = Statement.breakLine :=
            funext Statement.breakLine_breakLine
          rwa [hcomp] at htwice

/-- A line break is read. -/
theorem reaches_lineBreak (lines : LineMap) (hnl : IsLineBreak nl) (hrest : r.rest = nl ++ u)
    (hu : u.head? ≠ some '\n') (hbreaks : r.nesting.breaksEndStatements) :
    ∃ s, r.Reaches lines s ∧ s.rest = u ∧
      (r.nesting.modifyStatement Statement.breakLine).Agrees s.nesting := by
  obtain ⟨n, o, rest⟩ := r
  obtain rfl : rest = nl ++ u := hrest
  obtain ⟨c, t, hnl, hkind, hleft⟩ : ∃ c t, nl ++ u = c :: t ∧
      (Lexeme.read c t).kind = some .lineBreak ∧ Lexeme.rest c t = u := by
    rcases hnl with rfl | rfl | rfl
    · exact ⟨'\n', u, rfl, rfl, rfl⟩
    · exact ⟨'\r', '\n' :: u, rfl, rfl, rfl⟩
    · refine ⟨'\r', u, rfl, ?_⟩
      match u with
      | [] => exact ⟨rfl, rfl⟩
      | d :: u =>
          have hd : d ≠ '\n' := by simpa using hu
          constructor <;> simp [Lexeme.read, Lexeme.rest, Lexeme.body, isInlineBlank, isNameStart, hd]
  have hread : readLexeme lines n o c t =
      .ok ⟨n.breakLine, o + Text.byteSize (Lexeme.read c t).text, u⟩ := by
    simp only [readLexeme, hkind, hleft]
  rw [hnl]
  refine ⟨_, .of_read hread, rfl, ?_⟩
  rw [Nesting.breakLine_eq hbreaks]
  exact .refl _

/-- A comment up to the end of its line is read. -/
theorem reaches_comment (lines : LineMap) (htext : ∀ d ∈ text, isLineEnd d = false)
    (hu : ∀ d ∈ u.head?, isLineEnd d) (hrest : r.rest = '/' :: '/' :: (text ++ u)) :
    ∃ s, r.Reaches lines s ∧ s.rest = u ∧
      (r.nesting.modifyStatement (Statement.comment text)).Agrees s.nesting := by
  obtain ⟨n, o, rest⟩ := r
  obtain rfl : rest = '/' :: '/' :: (text ++ u) := hrest
  have hrun : (text ++ u).takeWhile (fun d => !isLineEnd d) = text := by
    have hall : ∀ d ∈ text, (!isLineEnd d) = true := fun d hd => by simp [htext d hd]
    rw [List.takeWhile_append_of_pos hall]
    cases u with
    | nil => simp
    | cons d u => simp [hu d rfl]
  have hbody := Lexeme.body_lineComment (text ++ u)
  rw [hrun] at hbody
  have hread : readLexeme lines n o '/' ('/' :: (text ++ u)) =
      .ok ⟨n.modifyStatement (Statement.comment text), o + Text.byteSize ('/' :: '/' :: text), u⟩ := by
    simp [readLexeme, Lexeme.read, Lexeme.rest, hbody]
  exact ⟨_, .of_read hread, rfl, .refl _⟩

/-- A name is read. -/
theorem reaches_name (lines : LineMap) (hd : isNameStart d) (hrest : r.rest = d :: v) :
    ∃ s, r.Reaches lines s ∧ s.rest = Lexeme.rest d v ∧
      (r.nesting.modifyStatement (Statement.act .identifier)).Agrees s.nesting := by
  obtain ⟨n, o, rest⟩ := r
  obtain rfl : rest = d :: v := hrest
  have hkind : (Lexeme.read d v).kind = some .identifier := by
    have hblank : isInlineBlank d = false := by
      by_contra hblank
      simp only [isInlineBlank, Bool.not_eq_false, Bool.or_eq_true, beq_iff_eq] at hblank
      rcases hblank with ((rfl | rfl) | rfl) | rfl <;> contradiction
    simp [Lexeme.read, Lexeme.body, hblank, hd]
  have hread : readLexeme lines n o d v =
      .ok ⟨((n.modifyStatement (Statement.meet .identifier)).identifier (Lexeme.read d v).text o).settle
        .identifier (Lexeme.read d v).text, o + Text.byteSize (Lexeme.read d v).text,
        Lexeme.rest d v⟩ := by
    simp only [readLexeme, hkind]
    rfl
  exact ⟨_, .of_read hread, rfl, Nesting.agrees_act (by simp) ⟨rfl, rfl, rfl⟩⟩

/-- The line break, the comment, the line break and the name behind a line act on the current statement
one after the other. -/
theorem reaches_nextName {nl' : Text} (hbreaks : r.nesting.breaksEndStatements)
    (hrest : r.rest = nl ++ '/' :: '/' :: (text ++ (nl' ++ d :: v))) (hnl : IsLineBreak nl)
    (htext : ∀ e ∈ text, isLineEnd e = false) (hnl' : IsLineBreak nl') (hd : isNameStart d) :
    ∃ s, r.Reaches lines s ∧ s.rest = Lexeme.rest d v ∧
      (r.nesting.modifyStatement fun st =>
        ((st.breakLine.comment text).breakLine).act .identifier).Agrees s.nesting := by
  have hfeed : d ≠ '\n' := by rintro rfl; contradiction
  have hends : ∀ e ∈ (nl' ++ d :: v).head?, isLineEnd e := by
    rcases hnl' with rfl | rfl | rfl <;> simp [isLineEnd]
  obtain ⟨r₁, hr₁, hrest₁, hm₁⟩ := reaches_lineBreak lines hnl hrest (by simp) hbreaks
  obtain ⟨r₂, hr₂, hrest₂, hm₂⟩ := reaches_comment lines htext hends hrest₁
  have hbreaks₂ : r₂.nesting.breaksEndStatements := by
    simpa [hm₂.breaksEndStatements_eq, hm₁.breaksEndStatements_eq,
      Nesting.breaksEndStatements_modifyStatement] using hbreaks
  obtain ⟨r₃, hr₃, hrest₃, hm₃⟩ :=
    reaches_lineBreak lines hnl' hrest₂ (by simpa using hfeed) hbreaks₂
  obtain ⟨s, hs, hrest₄, hm₄⟩ := reaches_name lines hd hrest₃
  refine ⟨s, ((hr₁.trans hr₂).trans hr₃).trans hs, hrest₄, ?_⟩
  have h₂ := (hm₁.modifyStatement _).trans hm₂
  have h₃ := (h₂.modifyStatement _).trans hm₃
  have h₄ := (h₃.modifyStatement _).trans hm₄
  simpa only [Nesting.modifyStatement_modifyStatement, Function.comp_def] using h₄

/-- A lexeme that completes an operand is code that separates nothing and opens nothing. -/
theorem CompletesOperand.isCode {k : LexemeKind} (h : CompletesOperand n k t) :
    k.isTrivia = false ∧ ¬(k = .semicolon ∨ k = .comma) ∧ k.opens = false := by
  rcases h with hends | ⟨rfl, -, -⟩
  · cases k <;> first | contradiction | exact ⟨rfl, by simp, rfl⟩
  · exact ⟨rfl, by simp, rfl⟩

/-- What leads the current statement is among what leads the open statements. -/
theorem Nesting.leading_subset_leadingComments (n : Nesting) :
    n.statement.leading ⊆ n.leadingComments := by
  cases hl : n.levels <;> simp [Nesting.statement, Nesting.leadingComments, hl]

/-- **What leads the statement on the line behind a comment.** A line ends in an operand, with blanks
and block comments behind it; a comment takes all of the next line, and a name begins the one behind
that, between the same brackets. If the operand ends an expression, the comment and nothing else leads
the new statement, and every template that is read while the statement lasts is led by the comment. If
the operand is a regular expression, the comment is dropped, and what led the statement before leads
these templates. -/
theorem leading_of_nextStatement {source nl' : Text} {a : Char} {k : LexemeKind} {r₁ r₂ : Reading}
    (hreaches : Reading.Reaches (LineMap.ofText source) ⟨{}, 0, source⟩ ⟨n, o, a :: t⟩)
    (hk : (Lexeme.read a t).kind = some k) (hoperand : CompletesOperand n k t)
    (hread : readLexeme (LineMap.ofText source) n o a t = .ok r₁)
    (hidles : r₁.Idles (LineMap.ofText source) r₂) (hbreaks : r₁.nesting.breaksEndStatements)
    (hrest : r₂.rest = nl ++ '/' :: '/' :: (text ++ (nl' ++ d :: v))) (hnl : IsLineBreak nl)
    (htext : ∀ e ∈ text, isLineEnd e = false) (hnl' : IsLineBreak nl') (hd : isNameStart d) :
    ∃ r₃, r₂.Reaches (LineMap.ofText source) r₃ ∧ r₃.rest = Lexeme.rest d v ∧
      r₃.nesting.openers = r₁.nesting.openers ∧ r₃.nesting.statement.IsUnderWay ∧
      r₃.nesting.statement.leading =
        (if k.endsExpression then [text] else r₁.nesting.statement.leading) ∧
      ∀ r₄, r₃.During (LineMap.ofText source) r₄ →
        ∃ ts, r₄.nesting.closed = r₃.nesting.closed ++ ts ∧
          ∀ t ∈ ts, r₃.nesting.leadingComments <+: t.leadingComments ∧
            (k.endsExpression → text ∈ t.leadingComments) := by
  obtain ⟨htrivia, hsep, hopens⟩ := hoperand.isCode
  have htidy := tidy_of_reaches .init hreaches
  obtain ⟨hway, hends⟩ := statement_readLexeme htidy hk htrivia hsep hopens hread hbreaks
  -- Whether a line has been broken before makes no difference to what follows.
  have hidle := idles_cases hidles hbreaks
  have hbreaks₂ : r₂.nesting.breaksEndStatements := by
    rcases hidle with hm | hm
    · simpa [hm.breaksEndStatements_eq] using hbreaks
    · simpa [hm.breaksEndStatements_eq, Nesting.breaksEndStatements_modifyStatement] using hbreaks
  obtain ⟨r₃, hr₃, hrest₃, hm₃⟩ := reaches_nextName hbreaks₂ hrest hnl htext hnl' hd
  have hm : (r₁.nesting.modifyStatement fun st =>
      ((st.breakLine.comment text).breakLine).act .identifier).Agrees r₃.nesting := by
    rcases hidle with hm | hm
    · exact (hm.modifyStatement _).trans hm₃
    · have hm := (hm.modifyStatement _).trans hm₃
      rw [Nesting.modifyStatement_modifyStatement] at hm
      simpa only [Function.comp_def, Statement.breakLine_breakLine] using hm
  obtain ⟨hway₃, hleading₃⟩ := Statement.act_identifier hway text
  have hstatement := hm.statement_eq
  rw [Nesting.statement_modifyStatement] at hstatement
  rw [← hstatement] at hway₃ hleading₃
  rw [hends] at hleading₃
  refine ⟨r₃, hr₃, hrest₃, ?_, hway₃, hleading₃, fun r₄ hr₄ => ?_⟩
  · rw [hm.openers_eq, Nesting.openers_modifyStatement]
  · have hbreaks₃ : r₃.nesting.breaksEndStatements := by
      rw [hm.breaksEndStatements_eq, Nesting.breaksEndStatements_modifyStatement]
      exact hbreaks
    obtain ⟨above, ls, -, hlasts⟩ := lasts_of_during hbreaks₃ hway₃.isOpen hr₄
    obtain ⟨ts, hts, hled⟩ := hlasts.closed
    refine ⟨ts, hts, fun t ht => ⟨hled t ht, fun hk => (hled t ht).subset ?_⟩⟩
    refine r₃.nesting.leading_subset_leadingComments ?_
    rw [hleading₃, if_pos hk]
    exact List.mem_singleton_self text

end

/-- Behind a regular expression the comment `c` is dropped, and `a` still leads what follows. -/
theorem leading_of_nextStatement_regex :
    let source : Text := "//a\n/b/\n//c\nd`".toList
    let n : Nesting := { base := { pending := [['a']] } }
    let m : Nesting := { base := { leading := [['a']], isOpen := true } }
    Reading.Reaches (LineMap.ofText source) ⟨{}, 0, source⟩ ⟨n, 4, "/b/\n//c\nd`".toList⟩ ∧
      readLexeme (LineMap.ofText source) n 4 '/' "b/\n//c\nd`".toList =
        .ok ⟨m, 7, "\n//c\nd`".toList⟩ ∧
      ∃ r₃, Reading.Reaches (LineMap.ofText source) ⟨m, 7, "\n//c\nd`".toList⟩ r₃ ∧
        r₃.rest = ['\x60'] ∧ r₃.nesting.statement.leading = [['a']] := by
  intro source n m
  have hreaches : Reading.Reaches (LineMap.ofText source) ⟨{}, 0, source⟩
      ⟨n, 4, "/b/\n//c\nd`".toList⟩ := .step (.step .refl rfl) rfl
  have hread : readLexeme (LineMap.ofText source) n 4 '/' "b/\n//c\nd`".toList =
      .ok ⟨m, 7, "\n//c\nd`".toList⟩ := rfl
  have hregex : CompletesOperand n .slash "b/\n//c\nd`".toList := Or.inr ⟨rfl, rfl, by decide⟩
  have hnl : IsLineBreak ['\n'] := Or.inl rfl
  have hlines : "\n//c\nd`".toList =
      ['\n'] ++ '/' :: '/' :: (['c'] ++ (['\n'] ++ 'd' :: ['\x60'])) := rfl
  obtain ⟨r₃, hr₃, hrest, -, -, hleading, -⟩ := leading_of_nextStatement hreaches rfl hregex hread
    .refl rfl hlines hnl (List.forall_mem_singleton.2 rfl) hnl (by decide)
  exact ⟨hreaches, hread, r₃, hr₃, hrest, hleading⟩

end StyleBlocks.Template
