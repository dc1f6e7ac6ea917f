import StyleBlocks.Proofs.Sheet.TokenForm

/-!
# The forms of statements

`Reads` lists the forms a statement can have, each with the tokens it is made of: comments, at-rules
with a block, with a semicolon or with neither, rules with a block, mixins, and declarations with a
semicolon or without. A statement that nothing of its own ends stands at the end of its block.

## Main results

* `reads_of_readStatement`: what is read as a statement has one of these forms.
-/

namespace StyleBlocks.Sheet

open Token (texts)

/-- Nothing but blanks stands between here and the end of the block or style sheet. -/
def AtBlockEnd : List Token → Prop
  | [] => True
  | t :: ts => t.kind = .closeCurly ∨ (t.kind = .space ∧ AtBlockEnd ts)

/-- Blanks do not keep a block from ending behind them. -/
theorem AtBlockEnd.append {ts us : List Token} (hts : ∀ t ∈ ts, t.isSpace = true)
    (hus : AtBlockEnd us) : AtBlockEnd (ts ++ us) := by
  induction ts with
  | nil => exact hus
  | cons t ts ih =>
      refine Or.inr ⟨Token.kind_of_isSpace (hts t List.mem_cons_self), ?_⟩
      exact ih fun u hu => hts u (List.mem_cons_of_mem _ hu)

/-! ### Cuts -/

/-- What is cut off behind a list is blank. -/
theorem isSpace_of_mem_cutBlanks {ts : List Token} {t : Token} (ht : t ∈ (cutBlanks ts).2) :
    t.isSpace = true := by
  induction ts with
  | nil => contradiction
  | cons u ts ih =>
      simp only [cutBlanks] at ht
      split at ht
      · next gap h =>
          rw [h] at ih
          split at ht
          · next hu =>
              rcases List.mem_cons.1 ht with rfl | ht
              · exact hu
              · exact ih ht
          · exact ih ht
      · next core gap _ h =>
          rw [h] at ih
          exact ih ht

/-- What is left in front of the blanks at the end is not made of blanks. -/
theorem fst_cutBlanks_eq_nil {ts : List Token} (h : ∀ t ∈ (cutBlanks ts).1, t.isSpace = true) :
    (cutBlanks ts).1 = [] := by
  induction ts with
  | nil => rfl
  | cons u ts ih =>
      simp only [cutBlanks] at h ⊢
      split at h
      · split
        · rfl
        · next hu =>
            rw [if_neg hu] at h
            exact absurd (h u List.mem_cons_self) hu
      · next core gap hne heq =>
          rw [heq] at ih
          have hcore : core = [] := ih fun t ht => h t (List.mem_cons_of_mem _ ht)
          exact absurd hcore hne

/-- What is cut off in front of the blanks ends in no blank. -/
theorem endsSolid_cutBlanks {ts : List Token} (h : (cutBlanks ts).1 ≠ []) :
    Token.EndsSolid (cutBlanks ts).1 := by
  induction ts with
  | nil => contradiction
  | cons u ts ih =>
      simp only [cutBlanks] at h ⊢
      split
      · next gap heq =>
          rw [heq] at h
          split
          · next hu => simp [hu] at h
          · next hu => exact ⟨[], u, rfl, by simpa using hu⟩
      · next core gap hne heq =>
          rw [heq] at ih
          exact (ih hne).append [u]

/-- A token that is not blank, and what is cut off in front of the blanks behind it. -/
theorem endsSolid_cons_trimBlanks {t : Token} (ht : t.isSpace = false) (ts : List Token) :
    Token.EndsSolid (t :: ((trimBlanks ts).front ++ (trimBlanks ts).core)) := by
  have hcut : (trimBlanks ts).front ++ (trimBlanks ts).core = (cutBlanks ts).1 :=
    List.takeWhile_append_dropWhile
  rw [hcut]
  by_cases h : (cutBlanks ts).1 = []
  · exact h ▸ ⟨[], t, rfl, ht⟩
  · exact (endsSolid_cutBlanks h).append [t]

/-- If there are only blanks, they all stand behind. -/
theorem front_eq_nil_of_core_eq_nil {ts : List Token} (h : (trimBlanks ts).core = []) :
    (trimBlanks ts).front = [] := by
  have hall : ∀ t ∈ (cutBlanks ts).1, t.isSpace = true := by
    simpa [trimBlanks, List.dropWhile_eq_nil_iff] using h
  simp [trimBlanks, fst_cutBlanks_eq_nil hall]

/-- Behind a token, what is not blank ends where its last token does. -/
theorem stop_getLast?_cons_trimBlanks (t : Token) (ts : List Token) :
    (t :: ((trimBlanks ts).front ++ (trimBlanks ts).core)).getLast?.map Token.stop =
      some (stopOf (trimBlanks ts).core t.stop) := by
  by_cases hcore : (trimBlanks ts).core = []
  · simp [hcore, front_eq_nil_of_core_eq_nil hcore, stopOf]
  · obtain ⟨u, hu⟩ : ∃ u, (trimBlanks ts).core.getLast? = some u :=
      Option.ne_none_iff_exists'.1 (by simpa using hcore)
    simp [List.getLast?_cons, List.getLast?_append, hu, stopOf]

/-- A list is cut in front of a token with the property, or not at all. -/
theorem snd_cutOutside (p : Token → Bool) (depth : Nat) (ts : List Token) :
    (cutOutside p depth ts).2 = [] ∨ ∃ u us, (cutOutside p depth ts).2 = u :: us ∧ p u = true := by
  induction ts generalizing depth with
  | nil => exact Or.inl rfl
  | cons t ts ih =>
      by_cases h : depth = 0 ∧ p t = true
      · exact Or.inr ⟨t, ts, by simp [cutOutside, h], h.2⟩
      · simpa [cutOutside, h] using ih (t.depthAfter depth)

/-- Braces and semicolons are all that ends a statement. -/
theorem Token.kind_of_endsStatement {k : Token} (h : k.endsStatement = true) :
    k.kind = .openCurly ∨ k.kind = .semicolon ∨ k.kind = .closeCurly := by
  rw [endsStatement] at h
  split at h
  · next hk => exact Or.inl hk
  · next hk => exact Or.inr (Or.inl hk)
  · next hk => exact Or.inr (Or.inr hk)
  · contradiction

/-- What ends a statement is a brace, a semicolon, or the end of the block. -/
theorem ending_cases (depth : Nat) (ts : List Token) :
    (∃ u rest, (cutOutside Token.endsStatement depth ts).2 = u :: rest ∧ u.kind = .openCurly ∧
      Ending.ofTokens (cutOutside Token.endsStatement depth ts).2 = .brace u rest) ∨
    (∃ u rest, (cutOutside Token.endsStatement depth ts).2 = u :: rest ∧ u.kind = .semicolon ∧
      Ending.ofTokens (cutOutside Token.endsStatement depth ts).2 = .semicolon u rest) ∨
    (AtBlockEnd (cutOutside Token.endsStatement depth ts).2 ∧
      Ending.ofTokens (cutOutside Token.endsStatement depth ts).2 =
        .outside (cutOutside Token.endsStatement depth ts).2) := by
  rcases snd_cutOutside Token.endsStatement depth ts with h | ⟨u, us, h, hu⟩
  · rw [h]
    exact Or.inr (Or.inr ⟨trivial, rfl⟩)
  · rw [h]
    rcases Token.kind_of_endsStatement hu with hk | hk | hk
    · exact Or.inl ⟨u, us, rfl, hk, by simp [Ending.ofTokens, hk]⟩
    · exact Or.inr (Or.inl ⟨u, us, rfl, hk, by simp [Ending.ofTokens, hk]⟩)
    · exact Or.inr (Or.inr ⟨Or.inl hk, by simp [Ending.ofTokens, hk]⟩)

/-! ### Forms -/

/-- The **forms of statements**: the tokens from a statement on, and what is read of them. -/
inductive Reads (lines : LineMap) (before : Text) : List Token → Read → Prop
  | comment {t : Token} {ts : List Token} {inner : Text} (hk : t.kind = .comment)
      (ht : t.text = '/' :: '*' :: (inner ++ ['*', '/'])) :
      Reads lines before (t :: ts) ⟨.whole (.comment
        { text := inner, before := some before, source := some (lines.range t.span) }) false, ts⟩
  | inlineComment {t : Token} {ts : List Token} {inner : Text} (hk : t.kind = .lineComment)
      (ht : t.text = '/' :: '/' :: inner) (hn : '\n' ∉ inner) :
      Reads lines before (t :: ts) ⟨.whole (.comment
        { text := inner, inline := true, before := some before,
          source := some (lines.range t.span) }) false, ts⟩
  | atRule {t u : Token} {ts front core back rest : List Token} {name : Text}
      (ht : t.text = '@' :: name) (hn : '\n' ∉ name)
      (hts : ts = front ++ core ++ back ++ u :: rest) (hu : u.kind = .openCurly) :
      Reads lines before (t :: ts) ⟨.opening (.atRule
        { name := name, params := texts core, before := some before,
          afterName := some (texts front), between := some (texts back) }) t.start u.start, rest⟩
  | atStatement {t u : Token} {ts front core back rest : List Token} {name : Text}
      (ht : t.text = '@' :: name) (hn : '\n' ∉ name)
      (hts : ts = front ++ core ++ back ++ u :: rest) (hu : u.kind = .semicolon) :
      Reads lines before (t :: ts) ⟨.whole (.atStatement
        { name := name, params := texts core, before := some before,
          afterName := some (texts front), between := some (texts back),
          source := some (lines.range ⟨t.start, u.stop⟩) }) true, rest⟩
  | openAtStatement {t : Token} {ts front core back rest : List Token} {name : Text} {stop : Nat}
      (ht : t.text = '@' :: name) (hn : '\n' ∉ name)
      (hts : ts = front ++ core ++ back ++ rest) (hlast : Token.EndsSolid (t :: (front ++ core)))
      (hstop : (t :: (front ++ core)).getLast?.map Token.stop = some stop)
      (hback : ∀ k ∈ back, k.isSpace = true) (hrest : AtBlockEnd rest) :
      Reads lines before (t :: ts) ⟨.whole (.atStatement
        { name := name, params := texts core, before := some before,
          afterName := some (texts front), between := some [],
          source := some (lines.range ⟨t.start, stop⟩) }) false, back ++ rest⟩
  | rule {t u : Token} {ts core back rest : List Token} (hts : t :: ts = core ++ back ++ u :: rest)
      (hu : u.kind = .openCurly) :
      Reads lines before (t :: ts) ⟨.opening (.rule
        { selector := texts core, before := some before, between := some (texts back) })
        t.start u.start, rest⟩
  | mixin {t u : Token} {ts core back rest : List Token}
      (hts : t :: ts = core ++ back ++ u :: rest) (hu : u.kind = .semicolon) :
      Reads lines before (t :: ts) ⟨.whole (.rule
        { selector := texts core, mixin := true, before := some before,
          between := some (texts back), source := some (lines.range ⟨t.start, u.stop⟩) } []) true,
        rest⟩
  | declaration {t u : Token} {ts prop gap value after rest : List Token}
      (hts : t :: ts = prop ++ gap ++ value ++ after ++ u :: rest) (hu : u.kind = .semicolon) :
      Reads lines before (t :: ts) ⟨.whole (.declaration
        { prop := texts prop, value := texts value, before := some before,
          between := some (texts gap), after := some (texts after),
          source := some (lines.range ⟨t.start, u.stop⟩) }) true, rest⟩
  | openDeclaration {t : Token} {ts prop gap value back rest : List Token} {stop : Nat}
      (hts : t :: ts = prop ++ gap ++ value ++ back ++ rest)
      (hlast : Token.EndsSolid (prop ++ gap ++ value))
      (hstop : (prop ++ gap ++ value).getLast?.map Token.stop = some stop)
      (hback : ∀ k ∈ back, k.isSpace = true) (hrest : AtBlockEnd rest) :
      Reads lines before (t :: ts) ⟨.whole (.declaration
        { prop := texts prop, value := texts value, before := some before,
          between := some (texts gap), after := some [],
          source := some (lines.range ⟨t.start, stop⟩) }) false, back ++ rest⟩

/-- What is trimmed off the end is blank. -/
theorem isSpace_of_mem_back {ts : List Token} {t : Token} (ht : t ∈ (trimBlanks ts).back) :
    t.isSpace = true :=
  isSpace_of_mem_cutBlanks ht

/-- What stands between a property and its value. -/
theorem texts_gap (gap : List Token) (colon : Token) (front : List Token) :
    texts gap ++ colon.text ++ texts front = texts (gap ++ colon :: front) := by
  simp

/-- The parts of a declaration make up its tokens. -/
theorem declaration_split {inner left right prop gap front core back : List Token} {colon : Token}
    (hinner : left ++ colon :: right = inner) (hleft : prop ++ gap = left)
    (hright : front ++ core ++ back = right) (rest : List Token) :
    inner ++ rest = prop ++ (gap ++ colon :: front) ++ core ++ back ++ rest := by
  subst hleft hright hinner
  simp

/-- An at-rule has one of the forms of statements. -/
theorem reads_readAtRule (lines : LineMap) (before : Text) {t : Token} (ts : List Token)
    {name : Text} (hk : t.isSpace = false) (ht : t.text = '@' :: name) (hn : '\n' ∉ name) :
    Reads lines before (t :: ts) (readAtRule lines before t (cutOutside Token.endsStatement 0 ts).1
      (.ofTokens (cutOutside Token.endsStatement 0 ts).2)) := by
  have hcut := cutOutside_append Token.endsStatement 0 ts
  rw [← trimBlanks_append (cutOutside Token.endsStatement 0 ts).1] at hcut
  obtain rfl : t.text.drop 1 = name := by rw [ht]; rfl
  rcases ending_cases 0 ts with ⟨u, rest, h, hu, hend⟩ | ⟨u, rest, h, hu, hend⟩ | ⟨hrest, hend⟩
  · rw [hend]
    rw [h] at hcut
    exact .atRule ht hn hcut.symm hu
  · rw [hend]
    rw [h] at hcut
    exact .atStatement ht hn hcut.symm hu
  · rw [hend]
    exact .openAtStatement ht hn hcut.symm (endsSolid_cons_trimBlanks hk _)
      (stop_getLast?_cons_trimBlanks t _) (fun _ hk => isSpace_of_mem_back hk) hrest

/-- A rule or declaration has one of the forms of statements. -/
theorem reads_readRuleOrDeclaration {g : Grammar} {lines : LineMap} {before : Text} {t : Token}
    {ts : List Token} {r : Read}
    (h : readRuleOrDeclaration g lines before t (cutOutside Token.endsStatement 0 (t :: ts)).1
      (.ofTokens (cutOutside Token.endsStatement 0 (t :: ts)).2) = .ok r) :
    Reads lines before (t :: ts) r := by
  have hcut := cutOutside_append Token.endsStatement 0 (t :: ts)
  have hcolon := cutOutside_append (fun u => u.kind = .colon) 0
    (cutOutside Token.endsStatement 0 (t :: ts)).1
  have hblanks := cutBlanks_append (cutOutside Token.endsStatement 0 (t :: ts)).1
  rcases ending_cases 0 (t :: ts) with ⟨u, rest, hr, hu, hend⟩ | ⟨u, rest, hr, hu, hend⟩ |
    ⟨hrest, hend⟩
  · rw [hend] at h
    rw [hr, ← hblanks] at hcut
    simp only [readRuleOrDeclaration, Except.ok.injEq] at h
    subst h
    exact .rule hcut.symm hu
  · rw [hend] at h
    rw [hr] at hcut
    simp only [readRuleOrDeclaration] at h
    split at h
    · next left colon right hc =>
        rw [hc] at hcolon
        have hleft := cutBlanks_append left
        have hright := trimBlanks_append right
        cases h
        simp only [readDeclaration]
        split
        · next hempty =>
            rw [List.isEmpty_iff] at hempty
            have hfront := front_eq_nil_of_core_eq_nil hempty
            rw [texts_gap, hempty]
            rw [hfront, hempty] at hright
            exact @Reads.declaration _ _ _ _ _ _ _ [] [] _ (hcut.symm.trans
              (by simpa using declaration_split hcolon hleft hright (u :: rest))) hu
        · rw [texts_gap]
          exact .declaration (hcut.symm.trans (declaration_split hcolon hleft hright _)) hu
    · split at h
      · next hs =>
          cases hs
          cases h
          rw [← hblanks] at hcut
          exact .mixin hcut.symm hu
      · contradiction
  · rw [hend] at h
    simp only [readRuleOrDeclaration] at h
    split at h
    · next left colon right hc =>
        have hkind : colon.kind = .colon := by
          simpa [hc] using snd_cutOutside (fun u => u.kind = .colon) 0
            (cutOutside Token.endsStatement 0 (t :: ts)).1
        rw [hc] at hcolon
        have hleft := cutBlanks_append left
        have hright := trimBlanks_append right
        cases h
        simp only [readDeclaration]
        rw [texts_gap]
        refine .openDeclaration (hcut.symm.trans (declaration_split hcolon hleft hright _)) ?_ ?_
          (fun _ hk => isSpace_of_mem_back hk) hrest
        · have hsolid :=
            endsSolid_cons_trimBlanks (t := colon) (by simp [Token.isSpace, hkind]) right
          simpa using hsolid.append ((cutBlanks left).1 ++ (cutBlanks left).2)
        · have hstop := stop_getLast?_cons_trimBlanks colon right
          simpa [List.getLast?_append] using hstop
    · split at h
      · next hs => cases hs
      · contradiction

/-- **What is read as a statement has one of the forms of statements.** -/
theorem reads_of_readStatement {g : Grammar} {lines : LineMap} {before : Text} {t : Token}
    {ts : List Token} {r : Read} (ht : t.HasForm)
    (h : readStatement g lines before t ts = .ok r) : Reads lines before (t :: ts) r := by
  simp only [readStatement] at h
  split at h
  · next hk =>
      obtain ⟨inner, hinner⟩ : ∃ inner, t.text = '/' :: '*' :: (inner ++ ['*', '/']) := by
        simpa [Token.HasForm, hk] using ht
      cases h
      have hread : Reads lines before (t :: ts) _ := .comment hk hinner
      simpa [readComment, hinner] using hread
  · next hk =>
      obtain ⟨name, hname, hn⟩ : ∃ name, t.text = '@' :: name ∧ '\n' ∉ name := by
        simpa [Token.HasForm, hk] using ht
      cases h
      exact reads_readAtRule lines before ts (by simp [Token.isSpace, hk]) hname hn
  · split at h
    · next hk =>
        obtain ⟨inner, hinner, hn⟩ : ∃ inner, t.text = '/' :: '/' :: inner ∧ '\n' ∉ inner := by
          simpa [Token.HasForm, hk.1] using ht
        cases h
        have hread : Reads lines before (t :: ts) _ := .inlineComment hk.1 hinner hn
        simpa [readComment, hinner] using hread
    · exact reads_readRuleOrDeclaration h

end StyleBlocks.Sheet
