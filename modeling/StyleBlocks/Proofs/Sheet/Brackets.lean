import StyleBlocks.Proofs.Sheet.LeafForm

/-!
# Well-nested brackets

Braces, parentheses and square brackets are **well nested** if every bracket that opens is closed by
one of its own kind, the last one that opened first. Statements are cut by counting parentheses and
square brackets only, whichever kind of them closes, and blocks are counted by their braces. For
well-nested text this is enough: what is cut off as a statement is well nested itself, and the
braces of blocks are exactly the brackets that are open between statements. So an error about a
brace tells that the brackets are not well nested. All that can be wrong with well-nested text is a
statement that has neither a block nor a colon.

## Main results

* `exists_inside_of_passes`: what is open after the tokens in front of a cut.
* `Parse.exists_due_step`: one step keeps as many braces due as there are open blocks.
* `Parse.run_of_due`: so does a run, up to its end or to a stray statement.
* `parse_of_wellNested`: well-nested text is a style sheet, or has a stray statement.
-/

namespace StyleBlocks.Sheet

/-! ### Brackets that are due -/

/-- The brackets that are due to close, innermost first, after a token; `none` if the token closes
another bracket than is due. -/
def Token.due? (due : List TokenKind) (t : Token) : Option (List TokenKind) :=
  match t.kind with
  | .openCurly => some (.closeCurly :: due)
  | .openParen => some (.closeParen :: due)
  | .openSquare => some (.closeSquare :: due)
  | .closeCurly | .closeParen | .closeSquare =>
    if due.head? = some t.kind then some due.tail else none
  | _ => some due

/-- The brackets that are due to close after tokens. -/
def dueAll (due : List TokenKind) (ts : List Token) : Option (List TokenKind) :=
  ts.foldlM Token.due? due

/-- Tokens are **well nested** if every bracket that opens is closed by one of its kind, the last
that opened first, and no others are closed. -/
def WellNested (ts : List Token) : Prop :=
  dueAll [] ts = some []

instance (ts : List Token) : Decidable (WellNested ts) :=
  inferInstanceAs (Decidable (dueAll [] ts = some []))

section

variable {P S due : List TokenKind} {t : Token} {ts us vs : List Token} {depth : Nat}

@[simp] theorem dueAll_nil (due : List TokenKind) : dueAll due [] = some due := rfl

@[simp] theorem dueAll_cons (due : List TokenKind) (t : Token) (ts : List Token) :
    dueAll due (t :: ts) = (t.due? due).bind fun due => dueAll due ts := rfl

/-- The brackets that are due behind tokens are told token by token. -/
@[simp] theorem dueAll_append (due : List TokenKind) (us vs : List Token) :
    dueAll due (us ++ vs) = (dueAll due us).bind fun due => dueAll due vs :=
  List.foldlM_append

/-- Blanks are no brackets. -/
theorem dueAll_spaces (h : ∀ k ∈ ts, k.isSpace = true) (due : List TokenKind) :
    dueAll due ts = some due := by
  induction ts with
  | nil => rfl
  | cons k ts ih =>
      obtain ⟨hk, hts⟩ := List.forall_mem_cons.1 h
      simpa [Token.due?, Token.kind_of_isSpace hk] using ih hts

/-! ### Cuts of well-nested tokens -/

/-- The brackets `P` that are due **inside** a statement where `depth` parentheses and square
brackets are open: so many of them are no braces, and the outermost is none. -/
structure Inside (P : List TokenKind) (depth : Nat) : Prop where
  count : P.countP (· ≠ .closeCurly) = depth
  outermost : P.getLast? ≠ some .closeCurly

/-- Where no brackets are open, that none are due is as it should be. -/
theorem inside_nil : Inside [] 0 :=
  ⟨rfl, by simp⟩

/-- No brackets are due inside a statement in which none are open. -/
theorem Inside.eq_nil (h : Inside P 0) : P = [] := by
  by_contra hne
  have hlast := List.getLast?_eq_some_getLast hne
  have hbrace : P.getLast hne = .closeCurly := by
    simpa using List.countP_eq_zero.1 h.count _ (List.getLast_mem hne)
  exact h.outermost (by rw [hlast, hbrace])

/-- Inside what is open, another bracket opens. -/
theorem Inside.cons (h : Inside P depth) {k : TokenKind} (hk : P = [] → k ≠ .closeCurly) :
    Inside (k :: P) (depth + if k = .closeCurly then 0 else 1) := by
  refine ⟨?_, ?_⟩
  · rw [List.countP_cons, h.count]
    by_cases hbrace : k = .closeCurly <;> simp [hbrace]
  · cases P with
    | nil => simpa using hk rfl
    | cons l P => simpa [List.getLast?_cons_cons] using h.outermost

/-- The innermost bracket closes. -/
theorem Inside.tail {k : TokenKind} (h : Inside (k :: P) depth) :
    Inside P (depth - if k = .closeCurly then 0 else 1) := by
  obtain ⟨hcount, houtermost⟩ := h
  rw [List.countP_cons] at hcount
  refine ⟨?_, ?_⟩
  · by_cases hbrace : k = .closeCurly
    · simpa [hbrace] using hcount
    · simp only [hbrace, ne_eq, not_false_eq_true, decide_true, if_true, if_false] at hcount ⊢
      omega
  · cases P with
    | nil => simp
    | cons l P => simpa [List.getLast?_cons_cons] using houtermost

/-- **One token inside a statement**: it opens or closes brackets of the statement only, where all
that is due around the statement are braces. -/
theorem Inside.exists_due (hP : Inside P depth) (hS : ∀ k ∈ S, k = .closeCurly)
    (hpass : ¬ (depth = 0 ∧ t.endsStatement = true)) (h : t.due? (P ++ S) = some due) :
    ∃ P', due = P' ++ S ∧ t.due? P = some P' ∧ Inside P' (t.depthAfter depth) := by
  -- At no depth, a brace would end the statement.
  have hopen : P = [] → t.endsStatement = false := by
    rintro rfl
    by_contra hends
    exact hpass ⟨by simpa using hP.count.symm, by simpa using hends⟩
  have hclosing : ∀ k, t.kind = k → (k = .closeCurly → P ≠ []) →
      (if (P ++ S).head? = some k then some (P ++ S).tail else none) = some due →
      ∃ P', due = P' ++ S ∧ (if P.head? = some k then some P.tail else none) = some P' ∧
        Inside P' (depth - if k = .closeCurly then 0 else 1) := by
    intro k hk hne hdue
    split at hdue
    · next hhead =>
        cases P with
        | nil =>
            have hbrace := hS k (List.mem_of_mem_head? hhead)
            exact absurd rfl (hne hbrace)
        | cons l P =>
            obtain rfl : l = k := by simpa using hhead
            exact ⟨P, by simpa using hdue.symm, by simp, hP.tail⟩
    · contradiction
  unfold Token.due? at h ⊢
  cases hk : t.kind with
  | openCurly =>
      have hne : P ≠ [] := fun hnil => by simpa [Token.endsStatement, hk] using hopen hnil
      simp only [hk, Option.some.injEq] at h
      refine ⟨.closeCurly :: P, h.symm, rfl, ?_⟩
      simpa [Token.depthAfter, hk] using hP.cons (k := .closeCurly) fun hnil => absurd hnil hne
  | openParen =>
      simp only [hk, Option.some.injEq] at h
      refine ⟨.closeParen :: P, h.symm, rfl, ?_⟩
      simpa [Token.depthAfter, hk] using hP.cons (k := .closeParen) (by simp)
  | openSquare =>
      simp only [hk, Option.some.injEq] at h
      refine ⟨.closeSquare :: P, h.symm, rfl, ?_⟩
      simpa [Token.depthAfter, hk] using hP.cons (k := .closeSquare) (by simp)
  | closeCurly =>
      have hne : P ≠ [] := fun hnil => by simpa [Token.endsStatement, hk] using hopen hnil
      simpa [Token.depthAfter, hk] using hclosing _ hk (fun _ => hne) (by simpa [hk] using h)
  | closeParen | closeSquare =>
      simpa [Token.depthAfter, hk] using hclosing _ hk (by simp) (by simpa [hk] using h)
  | _ =>
      simp only [hk, Option.some.injEq] at h
      exact ⟨P, h.symm, rfl, by simpa [Token.depthAfter, hk] using hP⟩

/-- **The tokens in front of a cut** open and close brackets of the statement only. -/
theorem exists_inside_of_passes (hP : Inside P depth) (hS : ∀ k ∈ S, k = .closeCurly)
    (hpasses : Passes Token.endsStatement depth us) (h : dueAll (P ++ S) us = some due) :
    ∃ P', due = P' ++ S ∧ dueAll P us = some P' ∧ Inside P' (depthAfterAll depth us) := by
  induction us generalizing P depth with
  | nil => exact ⟨P, by simpa using h.symm, rfl, hP⟩
  | cons t us ih =>
      obtain ⟨hpass, hpasses⟩ := hpasses
      obtain ⟨due', hdue', h⟩ := Option.bind_eq_some_iff.1 h
      obtain ⟨P', rfl, ht, hP'⟩ := hP.exists_due hS hpass hdue'
      obtain ⟨P'', hdue, hus, hP''⟩ := ih hP' hpasses h
      exact ⟨P'', hdue, by simpa [ht] using hus, hP''⟩

/-- **A statement cut off well-nested tokens** is well nested, and so is what is behind it. -/
theorem wellNested_of_cutOutside (hS : ∀ k ∈ S, k = .closeCurly) (h : dueAll S ts = some [])
    (hcut : cutOutside Token.endsStatement 0 ts = (us, vs)) :
    WellNested us ∧ dueAll S us = some S ∧ dueAll S vs = some [] := by
  obtain ⟨rfl, hpasses, hhead⟩ := cutOutside_eq_iff.1 hcut
  obtain ⟨due, hdue, hvs⟩ := Option.bind_eq_some_iff.1 (dueAll_append S us vs ▸ h)
  obtain ⟨P, rfl, hus, hP⟩ := exists_inside_of_passes inside_nil hS hpasses (P := []) hdue
  -- A cut is made where no parenthesis is open; without a cut nothing is due at the end.
  obtain rfl : P = [] := by
    cases vs with
    | nil => exact (List.append_eq_nil_iff.1 (Option.some.inj hvs)).1
    | cons v vs => exact Inside.eq_nil ((hhead v rfl).1 ▸ hP)
  exact ⟨hus, hdue, hvs⟩

/-- Behind a well-nested beginning of a statement no parentheses and square brackets are open. -/
theorem depthAfterAll_of_wellNested (hpasses : Passes Token.endsStatement 0 us)
    (h : WellNested us) : depthAfterAll 0 us = 0 := by
  obtain ⟨P, hnil, -, hP⟩ := exists_inside_of_passes inside_nil (S := []) (by simp) hpasses h
  obtain rfl : P = [] := by simpa using hnil.symm
  exact hP.count.symm

/-- What passes a property does not have it behind a well-nested beginning. -/
theorem eq_false_of_passes {p : Token → Bool}
    (hends : Passes Token.endsStatement 0 (us ++ t :: vs)) (hpasses : Passes p 0 (us ++ t :: vs))
    (h : WellNested us) : p t = false := by
  have hdepth := depthAfterAll_of_wellNested (passes_append.1 hends).1 h
  have hp := (passes_append.1 hpasses).2.1
  simpa [hdepth] using hp

end

/-! ### Stray statements -/

/-- A token behind which, but for blanks, a statement can start. -/
def Token.IsBoundary (g : Grammar) (t : Token) : Prop :=
  t.kind ∈ [.openCurly, .closeCurly, .semicolon, .comment] ∨
    t.kind = .lineComment ∧ g.inlineComments = true

/-- A statement can **start behind** some tokens: but for blanks, there are none, or the last of
them is a brace, a semicolon or a comment. -/
def StartsBehind (g : Grammar) (done : List Token) : Prop :=
  ∃ us blanks, done = us ++ blanks ∧ (∀ k ∈ blanks, k.isSpace = true) ∧
    (us = [] ∨ ∃ ws k, us = ws ++ [k] ∧ k.IsBoundary g)

/-- A **stray statement**: the tokens `t :: us` between `front` and `rest` are a statement in a
block or outside all blocks, but it has neither a block nor a colon outside brackets. -/
structure StrayStatement (g : Grammar) (front : List Token) (t : Token) (us rest : List Token) :
    Prop where
  /-- It starts where statements do. -/
  startsBehind : StartsBehind g front
  /-- It stands inside braces only. -/
  inBlocks : ∃ n, dueAll [] front = some (List.replicate n .closeCurly)
  /-- It is neither a comment nor an at-rule. -/
  begins : t.Begins g ∧ t.kind ≠ .atWord
  /-- It closes the brackets that it opens. -/
  wellNested : WellNested (t :: us)
  /-- Outside brackets it has no colon, and nothing that opens a block or ends a statement. -/
  bare : ∀ pre k post, t :: us = pre ++ k :: post → WellNested pre →
    k.kind ≠ .colon ∧ k.endsStatement = false
  /-- It is ended by its block, or by a semicolon where this does not make it a rule. -/
  ends : ∀ k ∈ rest.head?, k.kind = .closeCurly ∨ k.kind = .semicolon ∧ g.bareStatements = false

section

variable {g : Grammar} {lines : LineMap} {before : Text} {p : Parse} {t k : Token}
  {ts done blanks inner following : List Token}

/-- Blanks do not keep a statement from starting behind them. -/
theorem StartsBehind.append_spaces (h : StartsBehind g done)
    (hblanks : ∀ k ∈ blanks, k.isSpace = true) : StartsBehind g (done ++ blanks) := by
  obtain ⟨us, ws, rfl, hws, hus⟩ := h
  refine ⟨us, ws ++ blanks, by simp, fun k hk => ?_, hus⟩
  rcases List.mem_append.1 hk with hk | hk
  · exact hws k hk
  · exact hblanks k hk

/-- A statement can start behind a brace, a semicolon or a comment. -/
theorem startsBehind_of_isBoundary (h : k.IsBoundary g) : StartsBehind g (done ++ [k]) :=
  ⟨done ++ [k], [], by simp, by simp, Or.inr ⟨done, k, rfl, h⟩⟩

/-- **What is left after a statement**: what follows the brace or semicolon that ends it, or the end
of its block, with the blanks in front of that. -/
theorem rest_of_readStatement (ht : t.Begins g)
    (hcut : cutOutside Token.endsStatement 0 (t :: ts) = (inner, following)) {r : Read}
    (h : readStatement g lines before t ts = .ok r) :
    (∃ head start brace u, r.statement = .opening head start brace ∧ u.kind = .openCurly ∧
        following = u :: r.rest) ∨
      (∃ n, r.statement = .whole n true ∧ ∃ u, u.kind = .semicolon ∧ following = u :: r.rest) ∨
      ∃ n us blanks, r.statement = .whole n false ∧ inner = us ++ blanks ∧
        r.rest = blanks ++ following ∧ (∀ k ∈ blanks, k.isSpace = true) ∧ AtBlockEnd following := by
  obtain ⟨statement, rest⟩ := r
  cases statement with
  | opening head start brace =>
      obtain ⟨u, hu, hfollowing⟩ := exists_brace_of_readStatement ht hcut h
      exact Or.inl ⟨head, start, brace, u, rfl, hu, hfollowing⟩
  | whole n terminated =>
      obtain ⟨core, back, hleaf, hback, ⟨u, hu, rfl, hdepth, rfl⟩ |
        ⟨-, rfl, vs, rfl, rfl, hvs⟩⟩ := exists_leaf_of_readStatement ht h
      · rw [hleaf.cutOutside_eq hback (by simp [hdepth, Token.endsStatement, hu])] at hcut
        obtain ⟨-, rfl⟩ := Prod.mk.inj hcut
        exact Or.inr (Or.inl ⟨n, rfl, u, hu, rfl⟩)
      · have hends : ∀ k ∈ vs.head?, depthAfterAll 0 (t :: core) = 0 ∧ k.endsStatement = true :=
          fun k hk => ⟨(hvs k hk).1, by simp [Token.endsStatement, (hvs k hk).2]⟩
        rw [hleaf.cutOutside_eq hback hends] at hcut
        obtain ⟨rfl, rfl⟩ := Prod.mk.inj hcut
        refine Or.inr (Or.inr ⟨n, t :: core, back, rfl, rfl, rfl, hback, ?_⟩)
        cases vs with
        | nil => trivial
        | cons v vs => exact Or.inl (hvs v rfl).2

/-- What is not followed by a semicolon is not ended by one. -/
theorem ofTokens_ne_semicolon (h : ∀ k ∈ following.head?, k.kind ≠ .semicolon) (u : Token)
    (rest : List Token) : Ending.ofTokens following ≠ .semicolon u rest := by
  intro hu
  cases following with
  | nil => simp [Ending.ofTokens] at hu
  | cons v vs =>
      rw [Ending.ofTokens] at hu
      split at hu
      · contradiction
      · next hk => exact h v rfl hk
      · contradiction

/-- **Why a statement is an error**: it has neither a block nor a colon, and no semicolon makes it a
rule. -/
theorem cases_of_readStatement_error (ht : t.Begins g)
    (hcut : cutOutside Token.endsStatement 0 (t :: ts) = (inner, following)) {e : ParseError}
    (h : readStatement g lines before t ts = .error e) :
    e = .unknownWord t.text (lines.position t.start) ∧ t.kind ≠ .atWord ∧
      cutOutside (fun u => u.kind = .colon) 0 inner = (inner, []) ∧
      ∀ k ∈ following.head?,
        k.kind = .closeCurly ∨ k.kind = .semicolon ∧ g.bareStatements = false := by
  have hread := @readStatement_eq g lines before t ts inner following ht hcut
  rw [h] at hread
  split at hread
  · contradiction
  next hat =>
  obtain ⟨hinner, hpasses, hhead⟩ := cutOutside_eq_iff.1 hcut
  have hcolon : cutOutside (fun u => u.kind = .colon) 0 inner = (inner, []) := by
    have happend := cutOutside_append (fun u => decide (u.kind = .colon)) 0 inner
    unfold readRuleOrDeclaration at hread
    dsimp only at hread
    split at hread
    · contradiction
    split at hread
    · contradiction
    · next left hleft =>
        rw [hleft, List.append_nil] at happend
        rw [hleft, show left = inner from happend]
  have hbrace : ∀ k ∈ following.head?, k.kind ≠ .openCurly := by
    intro k hk hkind
    obtain ⟨vs, rfl⟩ := List.head?_eq_some_iff.1 hk
    rw [readStatement_brace ht hcut hkind] at h
    contradiction
  have hsemicolon : g.bareStatements = true → ∀ k ∈ following.head?, k.kind ≠ .semicolon := by
    intro hg k hk hkind
    obtain ⟨vs, rfl⟩ := List.head?_eq_some_iff.1 hk
    simp [readRuleOrDeclaration, Ending.ofTokens, hkind, hcolon, hg] at hread
  have hunknown : readRuleOrDeclaration g lines before t inner (.ofTokens following) =
      .error (.unknownWord t.text (lines.position t.start)) :=
    readRuleOrDeclaration_of_noColon hcolon (ofTokens_ne_brace hbrace) fun hg =>
      ofTokens_ne_semicolon (hsemicolon hg)
  refine ⟨by simpa using hread.trans hunknown, hat, hcolon, fun k hk => ?_⟩
  rcases Token.kind_of_endsStatement (hhead k hk).2 with hkind | hkind | hkind
  · exact absurd hkind (hbrace k hk)
  · exact Or.inr ⟨hkind, by simpa using fun hg => hsemicolon hg k hk hkind⟩
  · exact Or.inl hkind

/-! ### Steps and runs -/

/-- The braces that are due between two statements: one for each open block. -/
def Parse.due (p : Parse) : List TokenKind :=
  List.replicate p.blocks.length .closeCurly

/-- Between statements, only closing braces are due. -/
theorem Parse.eq_closeCurly_of_mem_due (p : Parse) : ∀ k ∈ p.due, k = .closeCurly :=
  fun _ hk => List.eq_of_mem_replicate hk

/-- A statement without a block leaves the braces that are due. -/
@[simp] theorem Parse.due_accept_whole (n : Node) (terminated : Bool) (p : Parse) :
    (p.accept (.whole n terminated)).due = p.due := rfl

/-- The head of a block makes a brace due. -/
@[simp] theorem Parse.due_accept_opening (head : Head) (start brace : Nat) (p : Parse) :
    (p.accept (.opening head start brace)).due = .closeCurly :: p.due := rfl

/-- **One statement**: what is read of it leaves one brace due for each open block. -/
theorem Parse.exists_due_accept (ht : t.Begins g) (hdue : dueAll p.due (t :: ts) = some [])
    {r : Read} (h : readStatement g lines p.body.pending t ts = .ok r) :
    ∃ us, t :: ts = us ++ r.rest ∧ dueAll p.due us = some (p.accept r.statement).due ∧
      (StartsBehind g (done ++ us) ∨ AtBlockEnd r.rest) := by
  obtain ⟨inner, following, hcut⟩ : ∃ inner following,
      cutOutside Token.endsStatement 0 (t :: ts) = (inner, following) := ⟨_, _, rfl⟩
  obtain ⟨-, hinner, -⟩ := wellNested_of_cutOutside p.eq_closeCurly_of_mem_due hdue hcut
  rw [(cutOutside_eq_iff.1 hcut).1]
  rcases rest_of_readStatement ht hcut h with ⟨head, start, brace, u, hr, hu, rfl⟩ |
    ⟨n, hr, u, hu, rfl⟩ | ⟨n, us, blanks, hr, rfl, hrest, hblanks, hend⟩
  · refine ⟨inner ++ [u], by simp, by simp [hinner, Token.due?, hu, hr], Or.inl ?_⟩
    exact List.append_assoc done inner [u] ▸ startsBehind_of_isBoundary (Or.inl (by simp [hu]))
  · refine ⟨inner ++ [u], by simp, by simp [hinner, Token.due?, hu, hr], Or.inl ?_⟩
    exact List.append_assoc done inner [u] ▸ startsBehind_of_isBoundary (Or.inl (by simp [hu]))
  · refine ⟨us, by simp [hrest], ?_, Or.inr (hrest ▸ hend.append hblanks)⟩
    simpa [dueAll_spaces hblanks, hr] using hinner

/-- **One statement that is an error** is stray. -/
theorem Parse.exists_stray (ht : t.Begins g) (hdone : dueAll [] done = some p.due)
    (hstarts : StartsBehind g done) (hdue : dueAll p.due (t :: ts) = some []) {e : ParseError}
    (h : readStatement g lines p.body.pending t ts = .error e) :
    e = .unknownWord t.text (lines.position t.start) ∧
      ∃ us rest, ts = us ++ rest ∧ StrayStatement g done t us rest := by
  obtain ⟨inner, following, hcut⟩ : ∃ inner following,
      cutOutside Token.endsStatement 0 (t :: ts) = (inner, following) := ⟨_, _, rfl⟩
  obtain ⟨hnested, -, -⟩ := wellNested_of_cutOutside p.eq_closeCurly_of_mem_due hdue hcut
  obtain ⟨he, hat, hcolon, hfollowing⟩ := cases_of_readStatement_error ht hcut h
  obtain ⟨happend, hpasses, hhead⟩ := cutOutside_eq_iff.1 hcut
  obtain ⟨-, hcolons, -⟩ := cutOutside_eq_iff.1 hcolon
  cases inner with
  | nil =>
      obtain rfl : t :: ts = following := happend
      rcases Token.kind_of_endsStatement (hhead t rfl).2 with hk | hk | hk
      · rcases hfollowing t rfl with hk' | ⟨hk', -⟩ <;> simp [hk] at hk'
      · exact absurd hk ht.notPending.2
      · exact absurd hk ht.notClose
  | cons k us =>
      obtain ⟨rfl, rfl⟩ := List.cons.inj happend
      refine ⟨he, us, following, rfl, hstarts, ⟨_, hdone⟩, ⟨ht, hat⟩, hnested, ?_, hfollowing⟩
      intro pre k post hus hpre
      rw [hus] at hpasses hcolons
      exact ⟨by simpa using eq_false_of_passes hpasses hcolons hpre,
        eq_false_of_passes hpasses hpasses hpre⟩

/-- A comment opens and closes nothing, and a statement can start behind it. -/
theorem due?_of_commentOf? {b : Node} (h : commentOf? g t = some b) (due : List TokenKind) :
    t.due? due = some due ∧ t.IsBoundary g := by
  rw [commentOf?] at h
  split at h
  · next hk => exact ⟨by simp [Token.due?, hk], Or.inl (by simp [hk])⟩
  · next hk =>
      split at h
      · next hinline => exact ⟨by simp [Token.due?, hk], Or.inr ⟨hk, hinline⟩⟩
      · contradiction
  · contradiction

/-- **One step** behind tokens that leave one brace due for each open block, where none are due at
the end: it leaves one due for each open block too, and ends where a statement can start or where
the block ends; or there is a stray statement. -/
theorem Parse.exists_due_step (hdone : dueAll [] done = some p.due)
    (hplace : StartsBehind g done ∨ AtBlockEnd (t :: ts))
    (hdue : dueAll p.due (t :: ts) = some []) (lines : LineMap) :
    (∃ q, p.step g lines t ts = .ok q ∧ ∃ us, t :: ts = us ++ q.2 ∧
        dueAll p.due us = some q.1.due ∧ (StartsBehind g (done ++ us) ∨ AtBlockEnd q.2)) ∨
      p.step g lines t ts = .error (.unknownWord t.text (lines.position t.start)) ∧
        ∃ us rest, ts = us ++ rest ∧ StrayStatement g done t us rest := by
  unfold step
  split
  · next hk =>
      refine Or.inl ⟨_, rfl, [t], rfl, by simp [Token.due?, hk, due], ?_⟩
      rcases hplace with hstarts | hclose | ⟨-, hend⟩
      · exact Or.inl (hstarts.append_spaces (by simp [Token.isSpace, hk]))
      · simp [hk] at hclose
      · exact Or.inr hend
  · next hk =>
      exact Or.inl ⟨_, rfl, [t], rfl, by simp [Token.due?, hk, due],
        Or.inl (startsBehind_of_isBoundary (Or.inl (by simp [hk])))⟩
  · next hk =>
      cases hblocks : p.blocks with
      | nil => simp [due, hblocks, Token.due?, hk] at hdue
      | cons b bs =>
          exact Or.inl ⟨_, rfl, [t], rfl,
            by simp [due, push, hblocks, Token.due?, hk, List.replicate_succ],
            Or.inl (startsBehind_of_isBoundary (Or.inl (by simp [hk])))⟩
  · next hspace hsemicolon hclose =>
      have hstarts : StartsBehind g done := by
        rcases hplace with hstarts | hk | ⟨hk, -⟩
        · exact hstarts
        · exact absurd hk hclose
        · exact absurd hk hspace
      rcases begins_or_comment (g := g) ⟨hspace, hsemicolon⟩ hclose with ht | ⟨b, hb, hbare⟩
      · cases hr : readStatement g lines p.body.pending t ts with
        | ok r =>
            obtain ⟨us, hus, hdue', hplace'⟩ := exists_due_accept ht hdue hr
            exact Or.inl ⟨_, rfl, us, hus, hdue', hplace'⟩
        | error e =>
            obtain ⟨rfl, hstray⟩ := exists_stray ht hdone hstarts hdue hr
            exact Or.inr ⟨rfl, hstray⟩
      · obtain ⟨m, hm, -⟩ := readStatement_comment (hbare.symm ▸ hb) lines p.body.pending ts
        obtain ⟨hopen, hboundary⟩ := due?_of_commentOf? hb p.due
        exact Or.inl ⟨_, by rw [hm]; rfl, [t], rfl, by simp [hopen],
          Or.inl (startsBehind_of_isBoundary hboundary)⟩

/-- **A run** behind such tokens reads all that is left, up to the end or to a stray statement. -/
theorem Parse.run_of_due (hdone : dueAll [] done = some p.due)
    (hplace : StartsBehind g done ∨ AtBlockEnd ts) (hdue : dueAll p.due ts = some [])
    (lines : LineMap) :
    (∃ b, p.run g lines ts = .ok b) ∨ ∃ front u us rest, done ++ ts = front ++ (u :: us) ++ rest ∧
      StrayStatement g front u us rest ∧
      p.run g lines ts = .error (.unknownWord u.text (lines.position u.start)) := by
  -- The tokens that are left are well nested behind those that are done, so one invariant on what
  -- is done carries over every step, wherever the step leaves off.
  induction hn : ts.length using Nat.strong_induction_on generalizing p ts done with
  | h n ih =>
      cases ts with
      | nil =>
          have hblocks : p.blocks = [] := by simpa [due] using hdue
          exact Or.inl ⟨p.body, by rw [run]; simp [hblocks]⟩
      | cons t ts =>
          rw [run_cons]
          rcases exists_due_step hdone hplace hdue lines with
            ⟨q, hq, us, hus, hdue', hplace'⟩ | ⟨hq, us, rest, rfl, hstray⟩
          · have hlength : q.2.length < n := by
              have := length_snd_step_le hq
              rw [List.length_cons] at hn
              omega
            have hrest : dueAll q.1.due q.2 = some [] := by
              rw [hus, dueAll_append, hdue'] at hdue
              exact hdue
            have hdone' : dueAll [] (done ++ us) = some q.1.due := by simp [hdone, hdue']
            rw [hq, hus, ← List.append_assoc]
            exact ih _ hlength hdone' hplace' hrest rfl
          · exact Or.inr ⟨done, t, us, rest, by simp, hstray, by rw [hq]; rfl⟩

/-- **Brace errors are bracket errors.** In any grammar, text whose brackets are well nested is
never said to have a block that does not close or a brace that closes none: it is a style sheet, or
the error is about a stray statement, which has neither a block nor a colon outside brackets. -/
theorem parse_of_wellNested {t : Text} {ts : List Token} (htokens : Token.tokenize t = .ok ts)
    (hnested : WellNested ts) (g : Grammar) :
    (∀ position, parse g t ≠ .error (.unclosedBlock position) ∧
      parse g t ≠ .error (.unexpectedClose position)) ∧
    ((∃ root, parse g t = .ok root) ∨
      ∃ front u us rest, ts = front ++ (u :: us) ++ rest ∧ StrayStatement g front u us rest ∧
        parse g t =
          .error (.unknownWord u.text ((LineMap.ofText t).position u.start))) := by
  have hparse : parse g t = (Parse.run g (LineMap.ofText t) {} ts).bind fun body =>
      .ok { nodes := body.nodes.reverse, after := some body.pending, semicolon := body.semicolon,
            source := some ((LineMap.ofText t).range ⟨0, Text.byteSize t⟩) } := by
    rw [parse, htokens]
    rfl
  have hstarts : StartsBehind g [] := ⟨[], [], rfl, by simp, Or.inl rfl⟩
  rw [hparse]
  rcases Parse.run_of_due (p := {}) rfl (Or.inl hstarts) hnested (LineMap.ofText t) with
    ⟨b, hb⟩ | ⟨front, u, us, rest, hts, hstray, hb⟩
  · simp [hb, Except.bind]
  · refine ⟨by simp [hb, Except.bind], Or.inr ⟨front, u, us, rest, hts, hstray, ?_⟩⟩
    rw [hb]
    rfl

/-- Braces and semicolons inside the parentheses of a value belong to the value; a statement whose
only colon is inside parentheses is stray. -/
theorem parse_of_wellNested_parentheses :
    (∃ ts root, Token.tokenize "a\x7bb:(;\x7b[c]\x7d)\x7d".toList = .ok ts ∧ WellNested ts ∧
      parse {} "a\x7bb:(;\x7b[c]\x7d)\x7d".toList = .ok root) ∧
    ∃ front u us rest,
      Token.tokenize "a\x7bb(:)\x7d".toList = .ok (front ++ (u :: us) ++ rest) ∧
      StrayStatement {} front u us rest ∧
      parse {} "a\x7bb(:)\x7d".toList = .error (.unknownWord u.text
        ((LineMap.ofText "a\x7bb(:)\x7d".toList).position u.start)) := by
  have htokens : ∀ t, (Token.tokenize t).map (fun ts => decide (WellNested ts)) = .ok true →
      ∃ ts, Token.tokenize t = .ok ts ∧ WellNested ts := by
    intro t h
    cases hts : Token.tokenize t with
    | error e => simp [hts, Except.map] at h
    | ok ts => exact ⟨ts, rfl, by simpa [hts, Except.map] using h⟩
  constructor
  · obtain ⟨ts, hts, hnested⟩ := htokens "a\x7bb:(;\x7b[c]\x7d)\x7d".toList (by decide +kernel)
    have hok : (parse {} "a\x7bb:(;\x7b[c]\x7d)\x7d".toList).isOk = true := by decide +kernel
    rcases (parse_of_wellNested hts hnested {}).2 with ⟨root, hroot⟩ | ⟨_, _, _, _, -, -, herror⟩
    · exact ⟨ts, root, hts, hnested, hroot⟩
    · rw [herror] at hok
      contradiction
  · obtain ⟨ts, hts, hnested⟩ := htokens "a\x7bb(:)\x7d".toList (by decide +kernel)
    have herror : (parse {} "a\x7bb(:)\x7d".toList).isOk = false := by decide +kernel
    rcases (parse_of_wellNested hts hnested {}).2 with
      ⟨root, hroot⟩ | ⟨front, u, us, rest, rfl, hstray, hparse⟩
    · rw [hroot] at herror
      contradiction
    · exact ⟨front, u, us, rest, hts, hstray, hparse⟩

end

end StyleBlocks.Sheet
