import StyleBlocks.Proofs.Template.Layout

/-!
# What a lexeme does

Reading a lexeme does one of three things. At a backtick it reads the first literal part of a
template, at the brace that closes a hole it reads the next one, and everywhere else it opens no
template and closes none. A literal part in its turn closes its template or opens its next hole. What
holds at every place of the source follows by induction from these few cases.

## Main results

* `readLiteral_cases`: what reading a literal part does.
* `readLexeme_cases`: what reading a lexeme does.
* `readToEnd_induction`: what every lexeme keeps holds at the end.
-/

namespace StyleBlocks.Template

/-- The openers of the open levels, innermost first. -/
def Nesting.openers (n : Nesting) : List Opener :=
  n.levels.map Level.opener

namespace Nesting

/-- A change to the statement opens and closes no level. -/
@[simp] theorem openers_modifyStatement (f : Statement → Statement) (n : Nesting) :
    (n.modifyStatement f).openers = n.openers := by
  rw [modifyStatement]
  split <;> simp_all [openers]

/-- A change to the statement leaves the chain as it is. -/
@[simp] theorem chain_modifyStatement (f : Statement → Statement) (n : Nesting) :
    (n.modifyStatement f).chain = n.chain := by
  rw [modifyStatement]
  split <;> rfl

/-- A change to the statement closes no template. -/
@[simp] theorem closed_modifyStatement (f : Statement → Statement) (n : Nesting) :
    (n.modifyStatement f).closed = n.closed := by
  rw [modifyStatement]
  split <;> rfl

/-- Taking note of a lexeme opens and closes no level. -/
@[simp] theorem openers_settle (k : LexemeKind) (text : Text) (n : Nesting) :
    (n.settle k text).openers = n.openers := by
  unfold settle
  extract_lets allowed m
  have hm : m.openers = n.openers := rfl
  split
  · exact hm
  · exact hm
  · exact (openers_modifyStatement _ m).trans hm

/-- Taking note of a lexeme closes no template. -/
@[simp] theorem closed_settle (k : LexemeKind) (text : Text) (n : Nesting) :
    (n.settle k text).closed = n.closed := by
  unfold settle
  extract_lets allowed m
  have hm : m.closed = n.closed := rfl
  split
  · exact hm
  · exact hm
  · exact (closed_modifyStatement _ m).trans hm

/-- A line break opens and closes no level. -/
@[simp] theorem openers_breakLine (n : Nesting) : n.breakLine.openers = n.openers := by
  rw [breakLine]
  split <;> simp

/-- A line break closes no template. -/
@[simp] theorem closed_breakLine (n : Nesting) : n.breakLine.closed = n.closed := by
  rw [breakLine]
  split <;> simp

/-- Closing a template leaves the levels as they are. -/
@[simp] theorem openers_closeTemplate (u : Unclosed) (stop : Nat) (n : Nesting) :
    (n.closeTemplate u stop).openers = n.openers :=
  openers_settle _ _ _

/-- A template that is closed is kept if it has a tag. -/
@[simp] theorem closed_closeTemplate (u : Unclosed) (stop : Nat) (n : Nesting) :
    (n.closeTemplate u stop).closed = n.closed ++ (u.close? stop).toList :=
  closed_settle _ _ _

/-- A hole is opened above the levels that are open. -/
@[simp] theorem openers_openHole (u : Unclosed) (s : Nat) (n : Nesting) :
    (n.openHole u s).openers = .hole u s :: n.openers := rfl

/-- Opening a hole closes no template. -/
@[simp] theorem closed_openHole (u : Unclosed) (s : Nat) (n : Nesting) :
    (n.openHole u s).closed = n.closed := rfl

/-- The first opener is that of the innermost level. -/
theorem exists_levels_of_openers {n : Nesting} {p : Opener} {os : List Opener}
    (h : n.openers = p :: os) :
    ∃ l ls, n.levels = l :: ls ∧ l.opener = p ∧ ls.map Level.opener = os :=
  List.map_eq_cons_iff.1 h

/-! ### What lexemes do to the nesting -/

/-- Nothing but the closing of templates and the opening of holes matters here: `n'` has no holes
and no closed templates that `n` has not. -/
def Keeps (n n' : Nesting) : Prop :=
  (∀ l' ∈ n'.levels, ∀ u s, l'.opener = .hole u s → ∃ l ∈ n.levels, l.opener = .hole u s) ∧
    n'.closed = n.closed

namespace Keeps

variable {n n' n'' : Nesting}

/-- A nesting keeps what it has. -/
theorem refl (n : Nesting) : n.Keeps n :=
  ⟨fun l hl _ _ ho => ⟨l, hl, ho⟩, rfl⟩

/-- What is kept in two turns is kept. -/
theorem trans (h : n.Keeps n') (h' : n'.Keeps n'') : n.Keeps n'' := by
  refine ⟨fun l hl u s ho => ?_, h'.2.trans h.2⟩
  obtain ⟨l', hl', ho'⟩ := h'.1 l hl u s ho
  exact h.1 l' hl' u s ho'

/-- Only the levels and the closed templates matter. -/
theorem of_eq (hl : n'.levels = n.levels) (hc : n'.closed = n.closed) : n.Keeps n' :=
  ⟨fun l hm _ _ ho => ⟨l, hl ▸ hm, ho⟩, hc⟩

/-- A change to the statement keeps holes and templates. -/
theorem modifyStatement (f : Statement → Statement) (n : Nesting) :
    n.Keeps (n.modifyStatement f) := by
  rw [Nesting.modifyStatement]
  split
  · exact .of_eq rfl rfl
  · next l ls hl =>
      refine ⟨fun m hm u s ho => ?_, rfl⟩
      rcases List.mem_cons.1 hm with rfl | hm
      · exact ⟨l, by simp [hl], ho⟩
      · exact ⟨m, by simp [hl, hm], ho⟩

/-- Forgetting the chain keeps holes and templates. -/
theorem dropChain (n : Nesting) : n.Keeps n.dropChain :=
  .of_eq rfl rfl

/-- A name keeps holes and templates. -/
theorem identifier (name : Text) (offset : Nat) (n : Nesting) :
    n.Keeps (n.identifier name offset) :=
  .of_eq rfl rfl

/-- A private name keeps holes and templates. -/
theorem privateName (name : Text) (n : Nesting) : n.Keeps (n.privateName name) :=
  .of_eq rfl rfl

/-- A line break keeps holes and templates. -/
theorem breakLine (n : Nesting) : n.Keeps n.breakLine := by
  rw [Nesting.breakLine]
  split
  · exact .modifyStatement _ n
  · exact .refl n

/-- Taking note of a lexeme keeps holes and templates. -/
theorem settle (k : LexemeKind) (text : Text) (n : Nesting) : n.Keeps (n.settle k text) := by
  unfold Nesting.settle
  extract_lets allowed m
  have hm : n.Keeps m := .of_eq rfl rfl
  split
  · exact hm
  · exact hm
  · exact hm.trans (.modifyStatement _ m)

/-- Opening a level that is no hole keeps holes and templates. -/
theorem openLevel {o : Opener} (ho : ∀ u s, o ≠ Opener.hole u s) (n : Nesting) :
    n.Keeps (n.openLevel o) := by
  refine ⟨fun l hl u s h => ?_, rfl⟩
  rcases List.mem_cons.1 hl with rfl | hl
  · exact absurd h (ho u s)
  · exact ⟨l, hl, h⟩

/-- Closing a level keeps holes and templates. -/
theorem closeLevel (k : LexemeKind) (n : Nesting) : n.Keeps (n.closeLevel k) := by
  rw [Nesting.closeLevel]
  split
  · exact .refl n
  · next l ls hl =>
      have hrest : ∀ m ∈ ls, m ∈ n.levels := fun m hm => by simp [hl, hm]
      split
      · exact ⟨fun m hm u s ho => ⟨m, hrest m hm, ho⟩, rfl⟩
      · exact ⟨fun m hm u s ho => ⟨m, hrest m hm, ho⟩, rfl⟩
      · exact ⟨fun m hm u s ho => ⟨m, hrest m hm, ho⟩, rfl⟩
      · exact .refl n

/-- The holes that are open in `n'` are open in `n`. -/
theorem mem_openers (h : n.Keeps n') {u : Unclosed} {s : Nat} (hu : .hole u s ∈ n'.openers) :
    .hole u s ∈ n.openers := by
  obtain ⟨l, hl, ho⟩ := List.mem_map.1 hu
  obtain ⟨m, hm, hmo⟩ := h.1 l hl u s ho
  exact List.mem_map.2 ⟨m, hm, hmo⟩

/-- A nesting without new levels and closed templates keeps holes and templates. -/
theorem of_openers (ho : n'.openers ⊆ n.openers) (hc : n'.closed = n.closed) : n.Keeps n' :=
  ⟨fun l hl _ _ h => List.mem_map.1 (h ▸ ho (List.mem_map.2 ⟨l, hl, rfl⟩)), hc⟩

end Keeps

end Nesting

/-! ### Literal parts -/

/-- The literal part with the given text at an offset. -/
def Quasi.ofRaw (lines : LineMap) (o : Nat) (raw : Text) : Quasi where
  span := ⟨o, o + Text.byteSize raw⟩
  start := lines.position o
  stop := lines.position (o + Text.byteSize raw)
  raw := raw

/-- A template with one more literal part. -/
def Unclosed.addQuasi (q : Quasi) (u : Unclosed) : Unclosed :=
  { u with quasis := u.quasis ++ [q] }

/-- A template with one more hole. -/
def Unclosed.addHole (h : Hole) (u : Unclosed) : Unclosed :=
  { u with holes := u.holes ++ [h] }

section

variable {lines : LineMap} {u : Unclosed} {r s : Reading} {n : Nesting} {o : Nat} {c : Char}
  {t raw : Text}

/-- Raw text in front of a backtick is the last literal part of a template. -/
theorem readLiteral_last (h : RawText.IsRaw raw) :
    readLiteral lines u ⟨n, o, raw ++ '\x60' :: t⟩ =
      .ok ⟨n.closeTemplate (u.addQuasi (.ofRaw lines o raw)) (o + Text.byteSize raw + 1),
        o + Text.byteSize raw + 1, t⟩ := by
  have hsegment := RawText.readSegment_append h .backtick t
  simp only [RawText.Delimiter.text, List.singleton_append] at hsegment
  simp only [readLiteral, hsegment]
  rfl

/-- Raw text in front of a dollar sign and a brace is a literal part with a hole behind it. -/
theorem readLiteral_hole (h : RawText.IsRaw raw) :
    readLiteral lines u ⟨n, o, raw ++ '$' :: '{' :: t⟩ =
      .ok ⟨n.openHole (u.addQuasi (.ofRaw lines o raw)) (o + Text.byteSize raw + 2),
        o + Text.byteSize raw + 2, t⟩ := by
  have hsegment := RawText.readSegment_append h .hole t
  simp only [RawText.Delimiter.text, List.cons_append, List.nil_append] at hsegment
  simp only [readLiteral, hsegment]
  rfl

/-- **What reading a literal part does**: with this part its template is closed, or goes on with a
hole. -/
theorem readLiteral_cases (h : readLiteral lines u ⟨n, o, t⟩ = .ok r) :
    ∃ raw rest, RawText.IsRaw raw ∧
      let v := u.addQuasi (.ofRaw lines o raw)
      let stop := o + Text.byteSize raw
      (t = raw ++ '\x60' :: rest ∧ r = ⟨n.closeTemplate v (stop + 1), stop + 1, rest⟩) ∨
        (t = raw ++ '$' :: '{' :: rest ∧ r = ⟨n.openHole v (stop + 2), stop + 2, rest⟩) := by
  simp only [readLiteral] at h
  split at h
  · contradiction
  next seg hseg =>
  have ht := RawText.eq_append_of_readSegment hseg
  refine ⟨seg.raw, seg.rest, RawText.isRaw_of_readSegment hseg, ?_⟩
  split at h
  · next hd =>
      cases h
      rw [hd] at ht
      exact Or.inl ⟨by simpa [RawText.Delimiter.text] using ht, rfl⟩
  · next hd =>
      cases h
      rw [hd] at ht
      exact Or.inr ⟨by simpa [RawText.Delimiter.text] using ht, rfl⟩

/-! ### Lexemes -/

/-- Reading has come over some text, from an offset. -/
def Reading.ComesFrom (o : Nat) (t : Text) (r : Reading) : Prop :=
  ∃ done, t = done ++ r.rest ∧ r.offset = o + Text.byteSize done

/-- Skipping code is reading it. -/
theorem Reading.ComesFrom.skip (h : r.ComesFrom o t) (k : Nat) : (r.skip k).ComesFrom o t := by
  obtain ⟨done, rfl, hoffset⟩ := h
  refine ⟨done ++ r.rest.take k, ?_, ?_⟩
  · simp [Reading.skip]
  · simp only [Reading.skip, hoffset, Text.byteSize_append]
    omega

/-- Delimiters of templates are lexemes of their own. -/
theorem eq_of_kind {k : LexemeKind} (h : (Lexeme.read c t).kind = some k) :
    (k = .closeBrace → c = '}') ∧ (k = .backtick → c = '\x60') := by
  simp only [Lexeme.read, Lexeme.body] at h
  repeat' split at h
  all_goals first | contradiction | (cases h; simp)

/-- A closing brace is the one character of its lexeme. -/
theorem eq_of_kind_closeBrace (h : (Lexeme.read c t).kind = some .closeBrace) : c = '}' :=
  (eq_of_kind h).1 rfl

/-- A backtick is the one character of its lexeme. -/
theorem eq_of_kind_backtick (h : (Lexeme.read c t).kind = some .backtick) : c = '\x60' :=
  (eq_of_kind h).2 rfl

/-- What acting on a lexeme that is not trivia does. -/
theorem readCode_cases {k : LexemeKind} {text : Text} {start : Nat}
    (h : readCode lines k text start r = .ok s) :
    (r.nesting.Keeps s.nesting ∧ s.ComesFrom r.offset r.rest) ∨
      (k = .backtick ∧ ∃ m comments, m.openers = r.nesting.openers ∧ m.closed = r.nesting.closed ∧
        readLiteral lines { chain := r.nesting.chain, opening := start, leadingComments := comments }
          ⟨m, r.offset, r.rest⟩ = .ok s) ∨
      (k = .closeBrace ∧ ∃ m u o, r.nesting.openers = .hole u o :: m.openers ∧
        m.closed = r.nesting.closed ∧
        readLiteral lines (u.addHole ⟨⟨o, start⟩, lines.position o⟩)
          ⟨m, r.offset, r.rest⟩ = .ok s) := by
  have hmeet := Nesting.Keeps.modifyStatement (Statement.meet k) r.nesting
  -- Most lexemes leave holes and closed templates alone.
  have hsettle : ∀ {n : Nesting}, (r.nesting.modifyStatement (Statement.meet k)).Keeps n →
      r.nesting.Keeps (n.settle k text) := fun hk => (hmeet.trans hk).trans (.settle k text _)
  have hhere : ∀ {n : Nesting}, Reading.ComesFrom r.offset r.rest { r with nesting := n } :=
    ⟨[], rfl, rfl⟩
  simp only [readCode] at h
  split at h
  · cases h; exact Or.inl ⟨hsettle (.identifier _ _ _), hhere⟩
  · cases h; exact Or.inl ⟨hsettle (.privateName _ _), hhere⟩
  · cases h; exact Or.inl ⟨hsettle (.of_eq rfl rfl), hhere⟩
  · cases h; exact Or.inl ⟨hsettle (.of_eq rfl rfl), hhere⟩
  · cases h; exact Or.inl ⟨hsettle (.openLevel (by simp) _), hhere⟩
  · cases h; exact Or.inl ⟨hsettle (.openLevel (by simp) _), hhere⟩
  · cases h; exact Or.inl ⟨hsettle (.openLevel (by simp) _), hhere⟩
  · cases h; exact Or.inl ⟨hsettle (.closeLevel _ _), hhere⟩
  · cases h; exact Or.inl ⟨hsettle (.closeLevel _ _), hhere⟩
  · split at h
    · next u holeStart statement ls hl =>
        refine Or.inr (Or.inr ⟨rfl, _, u, holeStart, ?_, ?_, h⟩)
        · rw [← Nesting.openers_modifyStatement (Statement.meet .closeBrace), Nesting.openers, hl,
            List.map_cons]
          rfl
        · exact Nesting.closed_modifyStatement _ _
    · cases h; exact Or.inl ⟨hsettle (.closeLevel _ _), hhere⟩
  · rw [Nesting.chain_modifyStatement] at h
    refine Or.inr (Or.inl ⟨rfl, _, _, ?_, ?_, h⟩)
    · exact Nesting.openers_modifyStatement _ _
    · exact Nesting.closed_modifyStatement _ _
  · cases h
    exact Or.inl ⟨hsettle (.dropChain _), hhere.skip _⟩
  · split at h
    · cases h
      exact Or.inl ⟨hsettle (.refl _), hhere.skip _⟩
    · cases h; exact Or.inl ⟨hsettle (.dropChain _), hhere⟩
  · cases h
    exact Or.inl ⟨hsettle ((Nesting.Keeps.dropChain _).trans (.modifyStatement _ _)), hhere⟩
  · cases h
    exact Or.inl ⟨hsettle ((Nesting.Keeps.dropChain _).trans (.modifyStatement _ _)), hhere⟩
  · cases h; exact Or.inl ⟨hsettle (.dropChain _), hhere⟩

/-- **What reading a lexeme does**: it leaves holes and closed templates alone, opens a template, or
closes the innermost hole. -/
theorem readLexeme_cases (h : readLexeme lines n o c t = .ok r) :
    (n.Keeps r.nesting ∧ r.ComesFrom o (c :: t)) ∨
      (c = '\x60' ∧ ∃ m comments, m.openers = n.openers ∧ m.closed = n.closed ∧
        readLiteral lines { chain := n.chain, opening := o, leadingComments := comments }
          ⟨m, o + 1, t⟩ = .ok r) ∨
      (c = '}' ∧ ∃ m u s, n.openers = .hole u s :: m.openers ∧ m.closed = n.closed ∧
        readLiteral lines (u.addHole ⟨⟨s, o⟩, lines.position s⟩) ⟨m, o + 1, t⟩ = .ok r) := by
  have hcut := Lexeme.read_text_append_rest c t
  have hhere : ∀ {m : Nesting}, Reading.ComesFrom o (c :: t)
      ⟨m, o + Text.byteSize (Lexeme.read c t).text, Lexeme.rest c t⟩ := ⟨_, hcut.symm, rfl⟩
  simp only [readLexeme] at h
  split at h
  · cases h; exact Or.inl ⟨.dropChain _, hhere⟩
  · cases h; exact Or.inl ⟨.refl _, hhere⟩
  · cases h; exact Or.inl ⟨.refl _, hhere⟩
  · cases h; exact Or.inl ⟨.breakLine _, hhere⟩
  · cases h; exact Or.inl ⟨.modifyStatement _ _, hhere⟩
  · next k _ _ _ _ hk =>
      rcases readCode_cases h with ⟨hkeeps, done, hdone, hoffset⟩ | ⟨rfl, hopens⟩ | ⟨rfl, hcloses⟩
      · refine Or.inl ⟨hkeeps, (Lexeme.read c t).text ++ done, ?_, ?_⟩
        · rw [List.append_assoc, ← hdone, hcut]
        · rw [hoffset, Text.byteSize_append, Nat.add_assoc]
      · obtain rfl := eq_of_kind_backtick hk
        exact Or.inr (Or.inl ⟨rfl, hopens⟩)
      · obtain rfl := eq_of_kind_closeBrace hk
        exact Or.inr (Or.inr ⟨rfl, hcloses⟩)

/-- **What every lexeme keeps** of a nesting, an offset and the text behind it holds at the end. -/
theorem readToEnd_induction {P : Nesting → Nat → Text → Prop}
    (step : ∀ {n o c t r}, P n o (c :: t) → readLexeme lines n o c t = .ok r →
      P r.nesting r.offset r.rest)
    {n n' : Nesting} {o : Nat} {t : Text} (h : P n o t) (hn : readToEnd lines n o t = .ok n') :
    ∃ o', P n' o' [] := by
  match t with
  | [] =>
      rw [readToEnd] at hn
      split at hn
      · contradiction
      · cases hn
        exact ⟨o, h⟩
  | c :: t =>
      rw [readToEnd_cons] at hn
      cases hr : readLexeme lines n o c t with
      | error e => simp [hr, Except.bind] at hn
      | ok r =>
          simp only [hr, Except.bind] at hn
          have hlt := length_rest_readLexeme_lt hr
          exact readToEnd_induction step (step h hr) hn
termination_by t.length
decreasing_by exact hlt

end

end StyleBlocks.Template
