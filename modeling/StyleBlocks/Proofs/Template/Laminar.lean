import StyleBlocks.Proofs.Template.Reported

/-!
# How templates lie to each other

Two templates that are found never overlap by halves. Of two, the one whose tag starts later lies
behind the other one, in its tag, or between its backticks.

While code is read, the templates closed so far avoid every place that a template closed later can
depend on: the start of each chain that could still become a tag, and each opening backtick whose
template is still open. What is read inside a level starts behind these places, level by level.

## Main results

* `Nesting.Laminar.closeTemplate`: a template that is closed lies to the others as it should.
* `laminar_readLexeme`: reading a lexeme keeps the invariant.
* `pairwise_of_findTemplates`: how the templates lie that are found.
-/

namespace StyleBlocks

/-- A span **is in** another one. -/
def Span.IsIn (s t : Span) : Prop :=
  t.start ≤ s.start ∧ s.stop ≤ t.stop

namespace Template

/-! ### Templates -/

namespace Tagged

/-- The bytes between the backticks of a template. -/
def content (t : Tagged) : Span :=
  t.contentSpan?.getD {}

/-- A template is **proper** if it consists of a tag, its content between two backticks, and nothing
else. -/
structure IsProper (t : Tagged) : Prop where
  contentSpan?_eq : t.contentSpan? = some t.content
  start_lt : t.span.start < t.content.start
  le : t.content.start ≤ t.content.stop
  stop_eq : t.span.stop = t.content.stop + 1

/-- A template lies in the tag of another one, in front of the opening backtick. -/
def IsInTagOf (t r : Tagged) : Prop :=
  r.span.start < t.span.start ∧ t.span.stop < r.content.start

/-- A template lies between the backticks of another one. -/
def IsInContentOf (t r : Tagged) : Prop :=
  r.content.start ≤ t.span.start ∧ t.span.stop ≤ r.content.stop

/-- How a template lies to one that is closed later: in front of it, in its tag or in its content. -/
def ClosesBefore (t u : Tagged) : Prop :=
  t.span.stop ≤ u.span.start ∨ t.IsInTagOf u ∨ t.IsInContentOf u

/-- How a template lies to one whose tag starts later: in front of it, or around it. -/
def StartsBefore (t u : Tagged) : Prop :=
  t.span.start < u.span.start ∧
    (t.span.stop ≤ u.span.start ∨ u.IsInTagOf t ∨ u.IsInContentOf t)

/-- A template **avoids** a place if it lies in front of it or behind it. -/
def Avoids (t : Tagged) (o : Nat) : Prop :=
  t.span.stop ≤ o ∨ o < t.span.start

end Tagged

/-! ### Levels -/

/-- An offset that everything inside a level lies behind, or at. -/
def Opener.inside : Opener → Nat
  | paren c | bracket c => (c.map fun c => c.start + 1).getD 0
  | brace => 0
  | hole _ s => s

/-- A chain can start at a place inside the levels of the given openers, and the given templates
avoid it. -/
structure Fits (os : List Opener) (ts : List Tagged) (o : Nat) : Prop where
  inside : ∀ p ∈ os, p.inside ≤ o
  avoids : ∀ t ∈ ts, t.Avoids o

/-- A template that is open fits between the levels around it and the templates closed so far: its tag
does, and the templates avoid its opening backtick, behind which its content starts. -/
structure Unclosed.Fits (os : List Opener) (ts : List Tagged) (u : Unclosed) : Prop where
  tag : ∀ c ∈ u.chain, c.start < u.opening ∧ Template.Fits os ts c.start
  avoids : ∀ t ∈ ts, t.Avoids u.opening
  start : ∀ q ∈ u.quasis.head?, q.span.start = u.opening + 1

/-- What opened a level fits between the levels around it and the templates closed so far. -/
def Opener.Fits (os : List Opener) (ts : List Tagged) : Opener → Prop
  | paren c | bracket c => ∀ d ∈ c, Template.Fits os ts d.start
  | brace => True
  | hole u s => u.Fits os ts ∧ u.quasis ≠ [] ∧ u.opening < s

/-- All open levels fit into each other. -/
def FitAll (ts : List Tagged) (o : Nat) : List Opener → Prop
  | [] => True
  | p :: os => p.inside ≤ o ∧ p.Fits os ts ∧ FitAll ts o os

/-- The **invariant of how templates lie**: those closed so far lie to each other as they should and
in front of the place that has been read to, and the chain and the open levels fit. -/
structure Nesting.Laminar (o : Nat) (n : Nesting) : Prop where
  closed : n.closed.Pairwise Tagged.ClosesBefore
  proper : ∀ t ∈ n.closed, t.IsProper ∧ t.span.stop ≤ o
  chain : ∀ c ∈ n.chain, c.start < o ∧ Fits n.openers n.closed c.start
  levels : FitAll n.closed o n.openers

section

variable {o o' : Nat} {os : List Opener} {p : Opener} {ts : List Tagged} {t : Tagged}
  {u : Unclosed} {n n' : Nesting}

/-- Levels that fit up to a place fit up to any later one. -/
theorem FitAll.mono (h : FitAll ts o os) (hle : o ≤ o') : FitAll ts o' os := by
  induction os with
  | nil => trivial
  | cons p os ih => exact ⟨Nat.le_trans h.1 hle, h.2.1, ih h.2.2⟩

/-- Everything that has been opened lies in front of the place that has been read to. -/
theorem FitAll.inside_le (h : FitAll ts o os) : ∀ p ∈ os, p.inside ≤ o := by
  induction os with
  | nil => simp
  | cons p os ih => exact List.forall_mem_cons.2 ⟨h.1, ih h.2.2⟩

/-- One more template behind a place avoids it. -/
theorem Fits.append (h : Fits os ts o) (ht : o < t.span.start) : Fits os (ts ++ [t]) o where
  inside := h.inside
  avoids := by
    simp only [List.forall_mem_append, List.forall_mem_singleton]
    exact ⟨h.avoids, Or.inr ht⟩

/-- One more template inside all levels avoids what they depend on. -/
theorem FitAll.append (h : FitAll ts o os) (ht : ∀ p ∈ os, p.inside ≤ t.span.start) :
    FitAll (ts ++ [t]) o os := by
  induction os with
  | nil => trivial
  | cons p os ih =>
      obtain ⟨hle, hfits, hrest⟩ := h
      obtain ⟨hp, hos⟩ := List.forall_mem_cons.1 ht
      refine ⟨hle, ?_, ih hrest hos⟩
      cases p with
      | paren c | bracket c =>
          intro d hd
          obtain rfl := Option.mem_def.1 hd
          exact (hfits d rfl).append hp
      | brace => trivial
      | hole u s =>
          obtain ⟨hu, hne, hs⟩ := hfits
          have hopening : u.opening < t.span.start := Nat.lt_of_lt_of_le hs hp
          refine ⟨⟨fun c hc => ?_, ?_, hu.start⟩, hne, hs⟩
          · obtain ⟨hlt, hfit⟩ := hu.tag c hc
            exact ⟨hlt, hfit.append (by omega)⟩
          · simp only [List.forall_mem_append, List.forall_mem_singleton]
            exact ⟨hu.avoids, Or.inr hopening⟩

namespace Nesting

/-! ### What lexemes do to the levels -/

namespace Laminar

/-- The invariant holds at the start. -/
theorem init : Laminar 0 {} :=
  ⟨.nil, by simp, by simp, trivial⟩

/-- Only the levels' openers, the chain and the closed templates matter. -/
theorem of_eq (h : n.Laminar o) (ho : n'.openers = n.openers) (hc : n'.chain = n.chain)
    (hts : n'.closed = n.closed) : n'.Laminar o :=
  ⟨hts ▸ h.closed, hts ▸ h.proper, by rw [ho, hc, hts]; exact h.chain, by
    rw [ho, hts]; exact h.levels⟩

/-- The invariant holds at any later place. -/
theorem mono (h : n.Laminar o) (hle : o ≤ o') : n.Laminar o' where
  closed := h.closed
  proper t ht := ⟨(h.proper t ht).1, Nat.le_trans (h.proper t ht).2 hle⟩
  chain c hc := ⟨Nat.lt_of_lt_of_le (h.chain c hc).1 hle, (h.chain c hc).2⟩
  levels := h.levels.mono hle

/-- A change to the statement keeps the invariant. -/
theorem modifyStatement (h : n.Laminar o) (f : Statement → Statement) :
    (n.modifyStatement f).Laminar o :=
  h.of_eq (by simp) (by simp) (by simp)

/-- Taking note of a lexeme keeps the invariant. -/
theorem settle (h : n.Laminar o) (k : LexemeKind) (text : Text) :
    (n.settle k text).Laminar o := by
  unfold Nesting.settle
  extract_lets allowed m
  have hm : m.Laminar o := h.of_eq rfl rfl rfl
  split
  · exact hm
  · exact hm
  · exact hm.modifyStatement _

/-- A line break keeps the invariant. -/
theorem breakLine (h : n.Laminar o) : n.breakLine.Laminar o := by
  rw [Nesting.breakLine]
  split
  · exact h.modifyStatement _
  · exact h

/-- Forgetting the chain keeps the invariant. -/
theorem dropChain (h : n.Laminar o) : n.dropChain.Laminar o where
  closed := h.closed
  proper := h.proper
  chain := by simp [Nesting.dropChain]
  levels := h.levels

/-- Where reading has come to, a chain can start. -/
theorem fits (h : n.Laminar o) : Fits n.openers n.closed o where
  inside := h.levels.inside_le
  avoids t ht := Or.inl (h.proper t ht).2

/-- A template that is opened fits, with the chain in front of it as its tag. -/
theorem unclosed_fits (h : n.Laminar o) (comments : List Text) :
    Unclosed.Fits n.openers n.closed
      { chain := n.chain, opening := o, leadingComments := comments } where
  tag := h.chain
  avoids := h.fits.avoids
  start := by simp

/-- A name goes on with the chain or starts one. -/
theorem identifier (h : n.Laminar o) (hlt : o < o') (name : Text) :
    (n.identifier name o).Laminar o' := by
  have h' := h.mono (Nat.le_of_lt hlt)
  refine ⟨h'.closed, h'.proper, fun c hc => ?_, h'.levels⟩
  simp only [Nesting.identifier, Option.mem_def, Option.some.injEq] at hc
  split at hc
  · next d hd _ =>
      obtain rfl := hc
      exact h'.chain d hd
  · obtain rfl := hc
    exact ⟨hlt, h.fits⟩

/-- A private name goes on with the chain or drops it. -/
theorem privateName (h : n.Laminar o) (name : Text) : (n.privateName name).Laminar o := by
  refine ⟨h.closed, h.proper, fun c hc => ?_, h.levels⟩
  simp only [Nesting.privateName, Option.mem_def] at hc
  split at hc
  · next d hd _ =>
      cases hc
      exact h.chain d hd
  · contradiction

/-- A parenthesis or bracket keeps the chain in front of it. -/
theorem openLevel (h : n.Laminar o) (hp : p = .paren n.chain ∨ p = .bracket n.chain ∨ p = .brace) :
    (n.openLevel p).Laminar o := by
  refine ⟨h.closed, h.proper, by simp [Nesting.openLevel, Nesting.dropChain], ?_, ?_, h.levels⟩
  · rcases hp with rfl | rfl | rfl
    · cases hc : n.chain with
      | none => exact Nat.zero_le _
      | some c => exact (h.chain c hc).1
    · cases hc : n.chain with
      | none => exact Nat.zero_le _
      | some c => exact (h.chain c hc).1
    · exact Nat.zero_le _
  · rcases hp with rfl | rfl | rfl
    · exact fun d hd => (h.chain d hd).2
    · exact fun d hd => (h.chain d hd).2
    · trivial

/-- A level that is left gives back its chain. -/
theorem closeLevel (h : n.Laminar o) (k : LexemeKind) : (n.closeLevel k).Laminar o := by
  rw [Nesting.closeLevel]
  split
  · exact h
  next l ls hl =>
  have hlevels := h.levels
  rw [openers, hl, List.map_cons] at hlevels
  obtain ⟨hinside, hfits, hrest⟩ := hlevels
  have hback : ∀ {c : Option Chain} {f : Tag → Tag}, l.opener.inside =
      (c.map fun c => c.start + 1).getD 0 → (∀ d ∈ c, Fits (ls.map Level.opener) n.closed d.start) →
      Laminar o { n with levels := ls, chain := c.map (Chain.mapTag f), afterDot := false } := by
    intro c f hin hc
    refine ⟨h.closed, h.proper, fun d hd => ?_, hrest⟩
    obtain ⟨e, he, rfl⟩ := Option.map_eq_some_iff.1 hd
    rw [hin, he] at hinside
    exact ⟨hinside, hc e he⟩
  split
  · next c ho => exact hback (by rw [ho]; rfl) (by rw [ho] at hfits; exact hfits)
  · next c ho => exact hback (by rw [ho]; rfl) (by rw [ho] at hfits; exact hfits)
  · exact ⟨h.closed, h.proper, by simp, hrest⟩
  · exact h

/-- **A template that is closed** lies to the others as it should. -/
theorem closeTemplate (h : n.Laminar o) {u : Unclosed} {stop : Nat} (hstop : o < stop)
    (hu : u.Fits n.openers n.closed) {first last : Quasi} (hfirst : u.quasis.head? = some first)
    (hlast : u.quasis.getLast? = some last) (hle : first.span.start ≤ last.span.stop)
    (heq : stop = last.span.stop + 1) : (n.closeTemplate u stop).Laminar stop := by
  refine Laminar.settle ?_ _ _
  have h' := h.mono (Nat.le_of_lt hstop)
  cases hc : u.chain with
  | none =>
      rw [Unclosed.close?, hc, Option.map_none, Option.toList_none, List.append_nil]
      exact h'.dropChain
  | some c =>
      obtain ⟨hlt, hfits⟩ := hu.tag c hc
      have hstart := hu.start first hfirst
      obtain ⟨t, hclose, hspan, hcontent⟩ : ∃ t, u.close? stop = some t ∧
          t.span = ⟨c.start, stop⟩ ∧ t.contentSpan? = some ⟨u.opening + 1, last.span.stop⟩ :=
        ⟨_, by rw [Unclosed.close?, hc, Option.map_some], rfl,
          by simp [Tagged.contentSpan?, hfirst, hlast, hstart]⟩
      have hbytes : t.content = ⟨u.opening + 1, last.span.stop⟩ := by
        rw [Tagged.content, hcontent, Option.getD_some]
      have hproper : t.IsProper :=
        ⟨by rw [hcontent, hbytes], by rw [hspan, hbytes]; simp only; omega,
          by rw [hbytes]; simp only; omega, by rw [hspan, hbytes]; exact heq⟩
      have hbefore : ∀ s ∈ n.closed, s.ClosesBefore t := by
        intro s hs
        have hso := (h.proper s hs).2
        rw [Tagged.ClosesBefore, Tagged.IsInTagOf, Tagged.IsInContentOf, hspan, hbytes]
        rcases hfits.avoids s hs with hbefore | hbehind
        · exact Or.inl hbefore
        · rcases hu.avoids s hs with hbefore | hopening
          · exact Or.inr (Or.inl ⟨hbehind, by simp only; omega⟩)
          · exact Or.inr (Or.inr ⟨hopening, by simp only; omega⟩)
      rw [hclose, Option.toList_some]
      refine ⟨?_, ?_, by simp [Nesting.dropChain], ?_⟩
      · refine List.pairwise_append.2 ⟨h.closed, List.pairwise_singleton _ _, fun s hs r hr => ?_⟩
        exact List.mem_singleton.1 hr ▸ hbefore s hs
      · simp only [List.forall_mem_append, List.forall_mem_singleton]
        exact ⟨h'.proper, hproper, Nat.le_of_eq (by rw [hspan])⟩
      · exact h'.levels.append (by rw [hspan]; exact hfits.inside)

/-- The next hole of a template is opened. -/
theorem openHole (h : n.Laminar o) {u : Unclosed} {s : Nat} (hs : o ≤ s)
    (hu : u.Fits n.openers n.closed) (hne : u.quasis ≠ []) (hopening : u.opening < s) :
    (n.openHole u s).Laminar s := by
  have h' := h.mono hs
  exact ⟨h'.closed, h'.proper, by simp [Nesting.openHole, Nesting.openLevel, Nesting.dropChain],
    Nat.le_refl _, ⟨hu, hne, hopening⟩, h'.levels⟩

end Laminar

end Nesting

/-! ### Steps -/

/-- The place that reading has come to keeps the invariant. -/
def Reading.Laminar (r : Reading) : Prop :=
  r.nesting.Laminar r.offset

/-- A template goes on with one more literal part. -/
theorem Unclosed.Fits.concat (h : u.Fits os ts) {q : Quasi}
    (hq : u.quasis = [] → q.span.start = u.opening + 1) :
    Unclosed.Fits os ts { u with quasis := u.quasis ++ [q] } where
  tag := h.tag
  avoids := h.avoids
  start p hp := by
    cases hquasis : u.quasis with
    | nil =>
        obtain rfl : q = p := by simpa [hquasis] using hp
        exact hq hquasis
    | cons first qs => exact h.start p (by simpa [hquasis] using hp)

/-- **A literal part is read**, and its template is closed or goes on with a hole. -/
theorem laminar_readLiteral {lines : LineMap} {rest : Text} {r : Reading} (h : n.Laminar o)
    (hu : u.Fits n.openers n.closed) (hopening : u.opening < o)
    (hdue : u.quasis = [] → o = u.opening + 1) (hr : readLiteral lines u ⟨n, o, rest⟩ = .ok r) :
    r.Laminar := by
  simp only [readLiteral] at hr
  split at hr
  · contradiction
  next seg hseg =>
  have hconcat := hu.concat (q := ⟨⟨o, o + Text.byteSize seg.raw⟩, lines.position o,
    lines.position (o + Text.byteSize seg.raw), seg.raw⟩) hdue
  split at hr
  · cases hr
    obtain ⟨first, hfirst⟩ : ∃ first, (u.quasis ++ [(⟨⟨o, o + Text.byteSize seg.raw⟩,
        lines.position o, lines.position (o + Text.byteSize seg.raw), seg.raw⟩ : Quasi)]).head? =
          some first := by
      cases u.quasis <;> simp
    have hstart := hconcat.start first hfirst
    exact h.closeTemplate (by simp only; omega) hconcat hfirst (List.getLast?_concat ..)
      (by simp only at hstart ⊢; omega) rfl
  · cases hr
    exact h.openHole (by simp only; omega) hconcat (by simp) (by simp only; omega)

/-- Where a hole is left, its template goes on with a literal part. -/
theorem laminar_readLiteral_of_hole {lines : LineMap} {rest : Text} {r : Reading}
    (h : n.Laminar o) {l : Level} {ls : List Level} {start : Nat} (hl : n.levels = l :: ls)
    (ho : l.opener = .hole u start) (hlt : start < o) (holes : List Hole)
    (hr : readLiteral lines { u with holes := holes } ⟨{ n with levels := ls }, o, rest⟩ = .ok r) :
    r.Laminar := by
  have hopeners : n.openers = .hole u start :: ls.map Level.opener := by
    rw [Nesting.openers, hl, List.map_cons, ho]
  have hlevels := h.levels
  rw [hopeners] at hlevels
  obtain ⟨-, ⟨hu, hne, hopening⟩, hrest⟩ := hlevels
  have hleft : Nesting.Laminar o { n with levels := ls } := by
    refine ⟨h.closed, h.proper, fun c hc => ?_, hrest⟩
    obtain ⟨hco, hfits⟩ := h.chain c hc
    rw [hopeners] at hfits
    exact ⟨hco, fun p hp => hfits.inside p (List.mem_cons_of_mem _ hp), hfits.avoids⟩
  exact laminar_readLiteral (u := { u with holes := holes }) hleft
    ⟨hu.tag, hu.avoids, hu.start⟩ (Nat.lt_trans hopening hlt) (fun hnil => absurd hnil hne) hr

/-- Dropping characters of what is left. -/
theorem Reading.Laminar.skip {r : Reading} (h : r.Laminar) (k : Nat) : (r.skip k).Laminar :=
  Nesting.Laminar.mono h (Nat.le_add_right _ _)

/-- A place behind a lexeme keeps the invariant of the place in front of it. -/
theorem laminar_readCode {lines : LineMap} {k : LexemeKind} {text : Text} {start : Nat}
    {r s : Reading} (h : r.nesting.Laminar start) (hlt : start < r.offset)
    (htick : k = .backtick → r.offset = start + 1)
    (hs : readCode lines k text start r = .ok s) : s.Laminar := by
  have hmeet := h.modifyStatement (Statement.meet k)
  have hnext := hmeet.mono (Nat.le_of_lt hlt)
  have hsettle : ∀ {n : Nesting}, n.Laminar r.offset →
      Reading.Laminar { r with nesting := n.settle k text } := fun hn => hn.settle k text
  simp only [readCode] at hs
  split at hs
  · cases hs; exact hsettle (hmeet.identifier hlt _)
  · cases hs; exact hsettle (hnext.privateName _)
  · cases hs; exact hsettle (hnext.of_eq rfl rfl rfl)
  · cases hs; exact hsettle (hnext.of_eq rfl rfl rfl)
  · cases hs; exact hsettle (hnext.openLevel (Or.inl rfl))
  · cases hs; exact hsettle (hnext.openLevel (Or.inr (Or.inl rfl)))
  · cases hs; exact hsettle (hnext.openLevel (Or.inr (Or.inr rfl)))
  · cases hs; exact hsettle (hnext.closeLevel _)
  · cases hs; exact hsettle (hnext.closeLevel _)
  · split at hs
    · next u holeStart statement ls hl =>
        have hinside := hmeet.levels.inside_le (.hole u holeStart)
          (by rw [Nesting.openers, hl, List.map_cons]; exact List.mem_cons_self)
        exact laminar_readLiteral_of_hole hnext hl rfl (Nat.lt_of_le_of_lt hinside hlt) _ hs
    · cases hs; exact hsettle (hnext.closeLevel _)
  · exact laminar_readLiteral hnext.dropChain (hmeet.unclosed_fits _) hlt (fun _ => htick rfl) hs
  · cases hs; exact (hsettle hnext.dropChain).skip _
  · split at hs
    · cases hs; exact (hsettle hnext).skip _
    · cases hs; exact hsettle hnext.dropChain
  · cases hs; exact hsettle (hnext.dropChain.modifyStatement _)
  · cases hs; exact hsettle (hnext.dropChain.modifyStatement _)
  · cases hs; exact hsettle hnext.dropChain

/-- **Reading a lexeme keeps the invariant.** -/
theorem laminar_readLexeme {lines : LineMap} {c : Char} {t : Text} {r : Reading}
    (h : n.Laminar o) (hr : readLexeme lines n o c t = .ok r) : r.Laminar := by
  have hlt : o < o + Text.byteSize (Lexeme.read c t).text :=
    Nat.lt_add_of_pos_right (Text.byteSize_pos (by simp [Lexeme.read]))
  have hnext := h.mono (Nat.le_of_lt hlt)
  simp only [readLexeme] at hr
  split at hr
  · cases hr; exact hnext.dropChain
  · cases hr; exact hnext
  · cases hr; exact hnext
  · cases hr; exact hnext.breakLine
  · cases hr; exact hnext.modifyStatement _
  · next k _ _ _ _ hk =>
      refine laminar_readCode (r := ⟨n, _, _⟩) h hlt (fun htick => ?_) hr
      obtain rfl := eq_of_kind_backtick (htick ▸ hk)
      rfl

/-- What is read to the end keeps the invariant. -/
theorem laminar_readToEnd {lines : LineMap} {rest : Text} (h : n.Laminar o)
    (hn : readToEnd lines n o rest = .ok n') : ∃ o', n'.Laminar o' :=
  readToEnd_induction (P := fun n o _ => n.Laminar o) laminar_readLexeme h hn

end

/-! ### The templates that are found -/

/-- A proper template is not empty. -/
theorem Tagged.IsProper.start_lt_stop {t : Tagged} (h : t.IsProper) : t.span.start < t.span.stop := by
  have := h.start_lt
  have := h.le
  have := h.stop_eq
  omega

/-- The template that is closed first of two, and the one whose tag starts first. -/
theorem Tagged.startsBefore_of_closesBefore {t u : Tagged} (ht : t.IsProper) (hu : u.IsProper)
    (h : t.ClosesBefore u ∨ u.ClosesBefore t) (hle : t.span.start ≤ u.span.start) :
    t.StartsBefore u := by
  have := ht.start_lt_stop
  have := hu.start_lt_stop
  have := hu.start_lt
  have := ht.start_lt
  simp only [StartsBefore, ClosesBefore, IsInTagOf, IsInContentOf] at h ⊢
  omega

/-- **How the templates lie that are found**: each is proper, and a later one lies behind an earlier
one, in its tag, or between its backticks. -/
theorem pairwise_of_findTemplates {source : Text} {ts : List Tagged}
    (h : findTemplates source = .ok ts) :
    (∀ t ∈ ts, t.IsProper) ∧ ts.Pairwise Tagged.StartsBefore := by
  obtain ⟨n, hr, rfl⟩ := findTemplates_eq_ok_iff.1 h
  obtain ⟨o, hn⟩ := laminar_readToEnd .init hr
  have hproper : ∀ t ∈ n.closed.mergeSort (fun t u => t.span.start ≤ u.span.start), t.IsProper :=
    fun t ht => (hn.proper t (List.mem_mergeSort.1 ht)).1
  have hsorted : (n.closed.mergeSort fun t u => t.span.start ≤ u.span.start).Pairwise
      fun t u => t.span.start ≤ u.span.start :=
    (List.pairwise_mergeSort (by simpa using fun _ _ _ => Nat.le_trans)
      (by simpa using fun _ _ => Nat.le_total _ _) n.closed).imp of_decide_eq_true
  have hlaminar := (List.mergeSort_perm n.closed
      fun t u => t.span.start ≤ u.span.start).symm.pairwise (hn.closed.imp Or.inl) Or.symm
  refine ⟨hproper, (hlaminar.and hsorted).imp_of_mem fun ht hu hboth => ?_⟩
  exact Tagged.startsBefore_of_closesBefore (hproper _ ht) (hproper _ hu) hboth.1 hboth.2

end Template

end StyleBlocks
