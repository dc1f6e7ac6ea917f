import StyleBlocks.Proofs.Template.Code

/-!
# Reading above what is open

How reading goes on depends on the code that is left and on little of what has been read: on whether
there is a chain and a dot behind it, on whether a regular expression can stand here, and on what
opened the levels that are open. Which chains have been read, where, and which levels are open below
makes no difference until these levels are closed. Two readings that do not differ in what matters
are **alike**, and remain so: code that is read by itself is read in the same way in the middle of
other code, and it leaves what is open around it as it was.

## Main results

* `Reading.Alike.exists_readLexeme`: readings that are alike read a lexeme alike.
-/

namespace StyleBlocks.Template

/-- What of an opener tells how reading goes on: the lexeme that closes its level, and whether it
gives back a chain then. -/
def Opener.outline : Opener → Option LexemeKind × Bool
  | paren callee => (some .closeParen, callee.isSome)
  | bracket object => (some .closeBracket, object.isSome)
  | brace => (some .closeBrace, false)
  | hole _ _ => (none, false)

/-- A level with the outline of a parenthesis is one, with a chain in front of it if there was
one. -/
theorem Opener.exists_of_outline_paren {p : Opener} {c : Option Chain}
    (h : p.outline = (Opener.paren c).outline) :
    ∃ c', p = .paren c' ∧ c'.isSome = c.isSome := by
  cases p <;> simp_all [outline]

/-- A level with the outline of a square bracket is one, with a chain in front of it if there was
one. -/
theorem Opener.exists_of_outline_bracket {p : Opener} {c : Option Chain}
    (h : p.outline = (Opener.bracket c).outline) :
    ∃ c', p = .bracket c' ∧ c'.isSome = c.isSome := by
  cases p <;> simp_all [outline]

/-- A level with the outline of a brace is one. -/
theorem Opener.eq_brace_of_outline {p : Opener} (h : p.outline = Opener.brace.outline) :
    p = .brace := by
  cases p <;> simp_all [outline]

/-- A level with the outline of a hole is one. -/
theorem Opener.exists_of_outline_hole {p : Opener} {u : Unclosed} {s : Nat}
    (h : p.outline = (Opener.hole u s).outline) : ∃ u' s', p = .hole u' s' := by
  cases p <;> simp_all [outline]

/-- The kinds of closing brackets. -/
def LexemeKind.closes : LexemeKind → Bool
  | closeParen | closeBracket | closeBrace => true
  | _ => false

/-- The nesting `m` is **open alike** to the nesting `n` above the levels that `base` opened: it has
these levels below, and above them levels that were opened alike. -/
def Nesting.OpenAlike (base : List Opener) (n m : Nesting) : Prop :=
  ∃ os, m.openers = os ++ base ∧ os.map Opener.outline = n.openers.map Opener.outline

/-- The nesting `m` is **alike** to the nesting `n` above the levels that `base` opened: it does not
differ from it, but for these levels below, in what matters for reading on. -/
structure Nesting.Alike (base : List Opener) (n m : Nesting) : Prop where
  openers : n.OpenAlike base m
  chain : m.chain.isSome = n.chain.isSome
  afterDot : m.afterDot = n.afterDot
  regexAllowed : m.regexAllowed = n.regexAllowed

/-- Two readings are **alike** if the same code is left and their nestings are alike. -/
structure Reading.Alike (base : List Opener) (r r' : Reading) : Prop where
  nesting : r.nesting.Alike base r'.nesting
  rest : r'.rest = r.rest

/-! ### Nestings -/

/-- A change to the statement leaves it as it is if a dot is in front. -/
@[simp] theorem Nesting.afterDot_modifyStatement (f : Statement → Statement) (n : Nesting) :
    (n.modifyStatement f).afterDot = n.afterDot := by
  rw [modifyStatement]
  split <;> rfl

/-- A change to the statement leaves it as it is if a regular expression can start. -/
@[simp] theorem Nesting.regexAllowed_modifyStatement (f : Statement → Statement) (n : Nesting) :
    (n.modifyStatement f).regexAllowed = n.regexAllowed := by
  rw [modifyStatement]
  split <;> rfl

/-- Taking note of a lexeme leaves the chain as it is. -/
@[simp] theorem Nesting.chain_settle (k : LexemeKind) (text : Text) (n : Nesting) :
    (n.settle k text).chain = n.chain := by
  unfold settle
  extract_lets allowed m
  have hm : m.chain = n.chain := rfl
  split
  · exact hm
  · exact hm
  · exact (chain_modifyStatement _ m).trans hm

/-- Taking note of a lexeme leaves it as it is if a dot is in front. -/
@[simp] theorem Nesting.afterDot_settle (k : LexemeKind) (text : Text) (n : Nesting) :
    (n.settle k text).afterDot = n.afterDot := by
  unfold settle
  extract_lets allowed m
  have hm : m.afterDot = n.afterDot := rfl
  split
  · exact hm
  · exact hm
  · exact (afterDot_modifyStatement _ m).trans hm

/-- A line break leaves the chain as it is. -/
@[simp] theorem Nesting.chain_breakLine (n : Nesting) : n.breakLine.chain = n.chain := by
  rw [breakLine]
  split <;> simp

/-- A line break leaves it as it is if a dot is in front. -/
@[simp] theorem Nesting.afterDot_breakLine (n : Nesting) : n.breakLine.afterDot = n.afterDot := by
  rw [breakLine]
  split <;> simp

/-- A line break leaves it as it is if a regular expression can start. -/
@[simp] theorem Nesting.regexAllowed_breakLine (n : Nesting) :
    n.breakLine.regexAllowed = n.regexAllowed := by
  rw [breakLine]
  split <;> simp

namespace Nesting.Alike

section

variable {base : List Opener} {n m : Nesting} {k : LexemeKind} {text : Text}

/-- Statements do not matter. -/
theorem modifyStatement (h : n.Alike base m) (f g : Statement → Statement) :
    (n.modifyStatement f).Alike base (m.modifyStatement g) :=
  ⟨by simpa [OpenAlike] using h.openers, by simpa using h.chain, by simpa using h.afterDot,
    by simpa using h.regexAllowed⟩

/-- Nestings that are alike still are without their chains. -/
theorem dropChain (h : n.Alike base m) : n.dropChain.Alike base m.dropChain :=
  ⟨h.openers, rfl, rfl, h.regexAllowed⟩

/-- Nestings that are alike still are after a line break. -/
theorem breakLine (h : n.Alike base m) : n.breakLine.Alike base m.breakLine :=
  ⟨by simpa [OpenAlike] using h.openers, by simpa using h.chain, by simpa using h.afterDot,
    by simpa using h.regexAllowed⟩

/-- A dot counts behind a chain only. -/
theorem dot (h : n.Alike base m) :
    { n with afterDot := n.chain.isSome }.Alike base { m with afterDot := m.chain.isSome } :=
  ⟨h.openers, h.chain, h.chain, h.regexAllowed⟩

/-- Nestings that are alike still are after a name. -/
theorem identifier (h : n.Alike base m) (name : Text) (o o' : Nat) :
    (n.identifier name o).Alike base (m.identifier name o') :=
  ⟨h.openers, rfl, rfl, h.regexAllowed⟩

/-- Nestings that are alike still are after a private name. -/
theorem privateName (h : n.Alike base m) (name : Text) :
    (n.privateName name).Alike base (m.privateName name) := by
  refine ⟨h.openers, ?_, rfl, h.regexAllowed⟩
  obtain ⟨-, hchain, hdot, -⟩ := h
  simp only [Nesting.privateName, hdot]
  cases hn : n.chain <;> cases hm : m.chain <;> simp [hn, hm] at hchain <;> cases n.afterDot <;> rfl

/-- Nestings that are alike still are in a level of the same outline. -/
theorem openLevel (h : n.Alike base m) {p p' : Opener} (hp : p'.outline = p.outline) :
    (n.openLevel p).Alike base (m.openLevel p') := by
  obtain ⟨os, hos, hmap⟩ := h.openers
  refine ⟨⟨p' :: os, ?_, ?_⟩, rfl, rfl, h.regexAllowed⟩
  · exact congrArg (p' :: ·) hos
  · simpa [Nesting.openLevel, Nesting.dropChain, Nesting.openers, hp] using hmap

/-- A lexeme tells by itself whether a regular expression can stand behind it. -/
theorem settle (hopen : n.OpenAlike base m) (hchain : m.chain.isSome = n.chain.isSome)
    (hdot : m.afterDot = n.afterDot) (k : LexemeKind) (text : Text) :
    (n.settle k text).Alike base (m.settle k text) := by
  unfold Nesting.settle
  extract_lets allowed n' m'
  have h : n'.Alike base m' := ⟨hopen, hchain, hdot, rfl⟩
  split
  · exact h
  · exact h
  · exact h.modifyStatement _ _

/-- Nestings that are alike still are after a lexeme has been taken note of. -/
theorem settled (h : n.Alike base m) (k : LexemeKind) (text : Text) :
    (n.settle k text).Alike base (m.settle k text) :=
  .settle h.openers h.chain h.afterDot k text

/-- Behind a template all that matters is what is open. -/
theorem closeTemplate (h : n.OpenAlike base m) (u u' : Unclosed) (stop stop' : Nat) :
    (n.closeTemplate u stop).Alike base (m.closeTemplate u' stop') := by
  have hopen : { n.dropChain with closed := n.closed ++ (u.close? stop).toList }.OpenAlike base
      { m.dropChain with closed := m.closed ++ (u'.close? stop').toList } := h
  exact settle hopen rfl rfl _ _

/-- In a hole all that matters is what is open. -/
theorem openHole (h : n.OpenAlike base m) (u u' : Unclosed) (o o' : Nat) :
    (n.openHole u o).Alike base (m.openHole u' o') := by
  obtain ⟨os, hos, hmap⟩ := h
  refine ⟨⟨.hole u' o' :: os, ?_, ?_⟩, rfl, rfl, rfl⟩
  · rw [openers_openHole, hos, List.cons_append]
  · simpa [Opener.outline] using hmap

/-- Above what `base` opened, the innermost levels of both nestings were opened alike. -/
theorem exists_levels (h : n.Alike base m) (hn : n.openers ≠ []) :
    ∃ l ls l' ls', n.levels = l :: ls ∧ m.levels = l' :: ls' ∧
      l'.opener.outline = l.opener.outline ∧ { n with levels := ls }.Alike base
        { m with levels := ls' } := by
  obtain ⟨os, hos, hmap⟩ := h.openers
  obtain ⟨p, ps, hps⟩ := List.exists_cons_of_ne_nil hn
  obtain ⟨l, ls, hl, rfl, rfl⟩ := exists_levels_of_openers hps
  rw [hps] at hmap
  obtain ⟨q, qs, rfl, hq, hqs⟩ := List.map_eq_cons_iff.1 hmap
  obtain ⟨l', ls', hl', rfl, hls'⟩ := exists_levels_of_openers hos
  exact ⟨l, ls, l', ls', hl, hl', hq, ⟨qs, hls', hqs⟩, h.chain, h.afterDot, h.regexAllowed⟩

/-- Nestings that are alike still are behind a level above the base that is closed. -/
theorem closeLevel (h : n.Alike base m) (hn : n.openers ≠ []) (k : LexemeKind) :
    (n.closeLevel k).Alike base (m.closeLevel k) := by
  obtain ⟨⟨p, st⟩, ls, ⟨p', st'⟩, ls', hl, hl', hp, hrest⟩ := h.exists_levels hn
  have hleft : ∀ {c c' : Option Chain}, c'.isSome = c.isSome →
      { n with levels := ls, chain := c, afterDot := false }.Alike base
        { m with levels := ls', chain := c', afterDot := false } :=
    fun hc => ⟨hrest.openers, hc, rfl, hrest.regexAllowed⟩
  rw [Nesting.closeLevel, Nesting.closeLevel, hl, hl']
  cases p with
  | paren c =>
      obtain ⟨c', rfl, hc⟩ := Opener.exists_of_outline_paren hp
      cases k <;> first | exact h | exact hleft (by simp [hc])
  | bracket c =>
      obtain ⟨c', rfl, hc⟩ := Opener.exists_of_outline_bracket hp
      cases k <;> first | exact h | exact hleft (by simp [hc])
  | brace =>
      obtain rfl := Opener.eq_brace_of_outline hp
      cases k <;> first | exact h | exact hleft rfl
  | hole u s =>
      obtain ⟨u', s', rfl⟩ := Opener.exists_of_outline_hole hp
      cases k <;> exact h

end

end Nesting.Alike

/-! ### Readings -/

section

variable {lines lines' : LineMap} {base : List Opener} {r r' s : Reading} {k : LexemeKind}
  {text : Text}

/-- Readings that are alike still are when as much code is skipped. -/
theorem Reading.Alike.skip (h : r.Alike base r') (i : Nat) : (r.skip i).Alike base (r'.skip i) :=
  ⟨h.nesting, by simp [Reading.skip, h.rest]⟩

/-- A literal part is read alike where all that is alike is what is open. -/
theorem exists_readLiteral_alike {n m : Nesting} (h : n.OpenAlike base m) {u u' : Unclosed}
    {o o' : Nat} {t : Text} (hread : readLiteral lines u ⟨n, o, t⟩ = .ok s) :
    ∃ s', readLiteral lines' u' ⟨m, o', t⟩ = .ok s' ∧ s.Alike base s' := by
  obtain ⟨raw, rest, hraw, ⟨rfl, rfl⟩ | ⟨rfl, rfl⟩⟩ := readLiteral_cases hread
  · exact ⟨_, readLiteral_last hraw, .closeTemplate h _ _ _ _, rfl⟩
  · exact ⟨_, readLiteral_hole hraw, .openHole h _ _ _ _, rfl⟩

/-- Readings that are alike act alike on a lexeme that is not trivia, unless it closes a level that
is not above what is open in both. -/
theorem Reading.Alike.exists_readCode (h : r.Alike base r')
    (hcloses : k.closes → r.nesting.openers ≠ []) {start start' : Nat}
    (hread : readCode lines k text start r = .ok s) :
    ∃ s', readCode lines' k text start' r' = .ok s' ∧ s.Alike base s' := by
  obtain ⟨n₀, o, t⟩ := r
  obtain ⟨m₀, o', t'⟩ := r'
  obtain ⟨h, rfl⟩ := h
  have hmeet := h.modifyStatement (Statement.meet k) (Statement.meet k)
  have hopeners := Nesting.openers_modifyStatement (Statement.meet k) n₀
  simp only [readCode] at hread ⊢
  generalize n₀.modifyStatement (Statement.meet k) = n at *
  generalize m₀.modifyStatement (Statement.meet k) = m at *
  have hsettled : ∀ {n m : Nesting}, n.Alike base m →
      Reading.Alike base ⟨n.settle k text, o, t'⟩ ⟨m.settle k text, o', t'⟩ :=
    fun hnm => ⟨hnm.settled k text, rfl⟩
  split at hread
  · cases hread; exact ⟨_, rfl, hsettled (hmeet.identifier _ _ _)⟩
  · cases hread; exact ⟨_, rfl, hsettled (hmeet.privateName _)⟩
  · cases hread; exact ⟨_, rfl, hsettled hmeet.dot⟩
  · cases hread; exact ⟨_, rfl, hsettled hmeet.dot⟩
  · cases hread; exact ⟨_, rfl, hsettled (hmeet.openLevel (by simp [Opener.outline, hmeet.chain]))⟩
  · cases hread; exact ⟨_, rfl, hsettled (hmeet.openLevel (by simp [Opener.outline, hmeet.chain]))⟩
  · cases hread; exact ⟨_, rfl, hsettled (hmeet.openLevel rfl)⟩
  · cases hread; exact ⟨_, rfl, hsettled (hmeet.closeLevel (hopeners ▸ hcloses rfl) _)⟩
  · cases hread; exact ⟨_, rfl, hsettled (hmeet.closeLevel (hopeners ▸ hcloses rfl) _)⟩
  · obtain ⟨⟨p, st⟩, ls, ⟨p', st'⟩, ls', hl, hl', hp, hrest⟩ :=
      hmeet.exists_levels (hopeners ▸ hcloses rfl)
    rw [hl] at hread
    rw [hl']
    cases p with
    | hole u s =>
        obtain ⟨u', s', rfl⟩ := Opener.exists_of_outline_hole hp
        exact exists_readLiteral_alike hrest.openers hread
    | paren | bracket | brace =>
        cases hread
        cases p' <;> simp [Opener.outline] at hp
        exact ⟨_, rfl, hsettled (hmeet.closeLevel (hopeners ▸ hcloses rfl) _)⟩
  · exact exists_readLiteral_alike hmeet.dropChain.openers hread
  · cases hread
    rw [hmeet.regexAllowed]
    exact ⟨_, rfl, (hsettled hmeet.dropChain).skip _⟩
  · have hchain := hmeet.chain
    split at hread
    · next c more hc hmore =>
        cases hread
        rw [hc, Option.isSome_some, Option.isSome_iff_exists] at hchain
        obtain ⟨c', hc'⟩ := hchain
        rw [hc', hmore]
        exact ⟨_, rfl, (hsettled hmeet).skip _⟩
    · next hnone =>
        cases hread
        refine ⟨_, ?_, hsettled hmeet.dropChain⟩
        split
        · next c' more hc' hmore =>
            rw [hc', Option.isSome_some, eq_comm, Option.isSome_iff_exists] at hchain
            obtain ⟨c, hc⟩ := hchain
            exact absurd hmore (hnone c more hc)
        · rfl
  · cases hread; exact ⟨_, rfl, hsettled (hmeet.dropChain.modifyStatement _ _)⟩
  · cases hread; exact ⟨_, rfl, hsettled (hmeet.dropChain.modifyStatement _ _)⟩
  · cases hread; exact ⟨_, rfl, hsettled hmeet.dropChain⟩

/-- **Readings that are alike read a lexeme alike**, unless it closes a level that is not above what
is open in both. -/
theorem Reading.Alike.exists_readLexeme {n m : Nesting} {o o' : Nat} {c : Char} {t : Text}
    (h : n.Alike base m)
    (hcloses : ∀ k ∈ (Lexeme.read c t).kind, k.closes → n.openers ≠ [])
    (hread : readLexeme lines n o c t = .ok s) :
    ∃ s', readLexeme lines' m o' c t = .ok s' ∧ s.Alike base s' := by
  simp only [readLexeme] at hread ⊢
  split at hread
  · cases hread; exact ⟨_, rfl, h.dropChain, rfl⟩
  · cases hread; exact ⟨_, rfl, h, rfl⟩
  · cases hread; exact ⟨_, rfl, h, rfl⟩
  · cases hread; exact ⟨_, rfl, h.breakLine, rfl⟩
  · cases hread; exact ⟨_, rfl, h.modifyStatement _ _, rfl⟩
  · next k _ _ _ _ hk =>
      have hhere : Reading.Alike base
          ⟨n, o + Text.byteSize (Lexeme.read c t).text, Lexeme.rest c t⟩
          ⟨m, o' + Text.byteSize (Lexeme.read c t).text, Lexeme.rest c t⟩ := ⟨h, rfl⟩
      exact hhere.exists_readCode (hcloses k hk) hread

/-- **A template opens alike** where all that is alike is what is open. -/
theorem exists_readLexeme_backtick_alike {n m : Nesting} {o o' : Nat} {t : Text}
    (h : n.OpenAlike base m) (hread : readLexeme lines n o '\x60' t = .ok s) (lines' : LineMap) :
    ∃ s', readLexeme lines' m o' '\x60' t = .ok s' ∧ s.Alike base s' := by
  obtain ⟨n', _, hn', -, hopen⟩ := readLexeme_backtick lines n o t
  obtain ⟨m', _, hm', -, hopen'⟩ := readLexeme_backtick lines' m o' t
  rw [hopen] at hread
  rw [hopen']
  have h' : n'.OpenAlike base m' := by
    rw [Nesting.OpenAlike, hn', hm']
    exact h
  exact exists_readLiteral_alike h' hread

end

end StyleBlocks.Template
