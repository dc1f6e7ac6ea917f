import Mathlib.Data.List.Basic
import StyleBlocks.Proofs.Sheet.Unplaced

/-!
# The inside of a value

A declaration is told by what stands around its value: the colon in front, what ends it behind, and
the blanks in between. What stands inside the value is taken as it is. Tokens can therefore stand for
others there, if they do not show outside: they must not begin or end with a blank, must close the
parentheses they open and no others, and must not end the statement. Such tokens are **inert**.

## Main results

* `cutOutside_eq_iff`: where a list is cut.
* `DeclarationForm.replace`: inert tokens in a value can be replaced by inert tokens.
* `Parse.exists_declaration_of_run`: what is read of a style sheet of one declaration.
* `exists_core_of_parse`: inert tokens in the value of such a style sheet can be replaced, and only the
  value changes.
-/

namespace StyleBlocks.Sheet

open Token (texts)

/-! ### Cuts -/

/-- The number of open parentheses and square brackets after tokens. -/
def depthAfterAll (depth : Nat) (ts : List Token) : Nat :=
  ts.foldl (fun depth t => t.depthAfter depth) depth

/-- Tokens **pass** a property if none of them has it outside parentheses and square brackets. -/
def Passes (p : Token → Bool) : Nat → List Token → Prop
  | _, [] => True
  | depth, t :: ts => ¬ (depth = 0 ∧ p t = true) ∧ Passes p (t.depthAfter depth) ts

section

variable {p : Token → Bool} {depth : Nat} {ts us vs front core back : List Token} {t : Token}

/-- The depth behind tokens is told token by token. -/
@[simp] theorem depthAfterAll_append (depth : Nat) (us vs : List Token) :
    depthAfterAll depth (us ++ vs) = depthAfterAll (depthAfterAll depth us) vs :=
  List.foldl_append

/-- Tokens pass a property just if those in front do, and those behind them do at their depth. -/
theorem passes_append :
    Passes p depth (us ++ vs) ↔ Passes p depth us ∧ Passes p (depthAfterAll depth us) vs := by
  induction us generalizing depth with
  | nil => simp [Passes, depthAfterAll]
  | cons t us ih => simp [Passes, depthAfterAll, ih, and_assoc]

/-- **Where a list is cut**: what is in front passes, and what is behind begins with a token that does
not. -/
theorem cutOutside_eq_iff :
    cutOutside p depth ts = (us, vs) ↔
      ts = us ++ vs ∧ Passes p depth us ∧ ∀ t ∈ vs.head?, depthAfterAll depth us = 0 ∧ p t = true := by
  induction ts generalizing depth us with
  | nil =>
      constructor
      · rintro h
        cases h
        exact ⟨rfl, trivial, by simp⟩
      · rintro ⟨h, -, -⟩
        obtain ⟨rfl, rfl⟩ := List.append_eq_nil_iff.1 h.symm
        rfl
  | cons t ts ih =>
      rw [cutOutside]
      split
      · next hcut =>
          constructor
          · intro h
            cases h
            exact ⟨rfl, trivial, by simpa [depthAfterAll] using hcut⟩
          · rintro ⟨h, hpass, -⟩
            cases us with
            | nil =>
                obtain rfl : t :: ts = vs := h
                rfl
            | cons u us =>
                obtain rfl : t = u := (List.cons.inj h).1
                exact absurd hcut hpass.1
      · next hcut =>
          cases us with
          | nil =>
              refine iff_of_false (by simp) ?_
              rintro ⟨h, -, hhead⟩
              obtain rfl : t :: ts = vs := h
              exact hcut (hhead t rfl)
          | cons u us =>
              have hrest : cutOutside p (t.depthAfter depth) ts = (us, vs) ↔ _ := ih
              simp only [Prod.mk.injEq, List.cons.injEq, List.cons_append, and_assoc]
              constructor
              · rintro ⟨rfl, hus, hvs⟩
                obtain ⟨rfl, hpass, hhead⟩ := hrest.1 (Prod.ext hus hvs)
                exact ⟨rfl, rfl, ⟨hcut, hpass⟩, hhead⟩
              · rintro ⟨rfl, rfl, hpass, hhead⟩
                have := hrest.2 ⟨rfl, hpass.2, hhead⟩
                exact ⟨rfl, congrArg Prod.fst this, congrArg Prod.snd this⟩

/-- What ends in no blank is cut off whole in front of blanks. -/
theorem cutBlanks_append_spaces (hcore : Token.EndsSolid core) (hback : ∀ t ∈ back, t.isSpace = true) :
    cutBlanks (core ++ back) = (core, back) := by
  have hspaces : ∀ ts : List Token, (∀ t ∈ ts, t.isSpace = true) → cutBlanks ts = ([], ts) := by
    intro ts hts
    induction ts with
    | nil => rfl
    | cons t ts ih =>
        obtain ⟨ht, hts⟩ := List.forall_mem_cons.1 hts
        simp [cutBlanks, ih hts, ht]
  obtain ⟨us, u, rfl, hu⟩ := hcore
  induction us with
  | nil => simp [cutBlanks, hspaces back hback, hu]
  | cons t us ih =>
      simp only [List.append_assoc, List.cons_append, List.nil_append] at ih
      simp only [List.append_assoc, List.cons_append, List.nil_append, cutBlanks, ih]
      cases us <;> rfl

/-- Tokens are **solid** if they neither begin nor end with a blank. -/
structure Solid (ts : List Token) : Prop where
  first : ∃ t us, ts = t :: us ∧ t.isSpace = false
  last : Token.EndsSolid ts

/-- Solid tokens stand between the blanks around them. -/
theorem trimBlanks_of_solid (hcore : Solid core) (hfront : ∀ t ∈ front, t.isSpace = true)
    (hback : ∀ t ∈ back, t.isSpace = true) :
    trimBlanks (front ++ core ++ back) = ⟨front, core, back⟩ := by
  obtain ⟨t, us, rfl, ht⟩ := hcore.first
  have hcut := cutBlanks_append_spaces (hcore.last.append front) hback
  rw [trimBlanks, hcut, List.takeWhile_append_of_pos hfront, List.dropWhile_append_of_pos hfront]
  simp [ht]

/-- What is left between blanks is solid, if anything is. -/
theorem solid_core_trimBlanks (h : (trimBlanks ts).core ≠ []) : Solid (trimBlanks ts).core := by
  have hcut : (trimBlanks ts).front ++ (trimBlanks ts).core = (cutBlanks ts).1 :=
    List.takeWhile_append_dropWhile
  constructor
  · obtain ⟨t, us, htus⟩ := List.exists_cons_of_ne_nil h
    have hhead := List.head?_dropWhile_not Token.isSpace (cutBlanks ts).1
    change (cutBlanks ts).1.dropWhile Token.isSpace = t :: us at htus
    rw [htus] at hhead
    exact ⟨t, us, htus, hhead⟩
  · have hne : (cutBlanks ts).1 ≠ [] := by
      rw [← hcut]
      simp [h]
    obtain ⟨us, u, hus, hu⟩ := endsSolid_cutBlanks hne
    obtain ⟨vs, v, hvs⟩ := (List.eq_nil_or_concat' _).resolve_left h
    rw [← hcut, hvs, ← List.append_assoc] at hus
    obtain ⟨-, hv⟩ := List.append_inj' hus rfl
    exact ⟨vs, v, hvs, by rwa [(List.cons.inj hv).1]⟩

/-- Replacing tokens by solid tokens leaves solid what they are in the middle of. -/
theorem Solid.replace (h : Solid (us ++ core ++ vs)) (hts : Solid ts) : Solid (us ++ ts ++ vs) where
  first := by
    cases us with
    | nil =>
        obtain ⟨t, ws, rfl, ht⟩ := hts.first
        exact ⟨t, ws ++ vs, rfl, ht⟩
    | cons u us =>
        obtain ⟨t, ws, hws, ht⟩ := h.first
        exact ⟨u, us ++ ts ++ vs, rfl, by rwa [(List.cons.inj hws).1]⟩
  last := by
    rcases List.eq_nil_or_concat' vs with rfl | ⟨ws, v, rfl⟩
    · simpa using hts.last.append us
    · obtain ⟨xs, x, hxs, hx⟩ := h.last
      rw [← List.append_assoc] at hxs
      obtain ⟨-, hv⟩ := List.append_inj' hxs rfl
      exact ⟨us ++ ts ++ ws, v, by simp, by rwa [(List.cons.inj hv).1]⟩

/-- Tokens are **inert** if inside a value they do not show outside it. -/
structure Inert (ts : List Token) : Prop where
  solid : Solid ts
  passes : ∀ depth, Passes Token.endsStatement depth ts
  closed : ∀ depth, depthAfterAll depth ts = depth

end

/-! ### Declarations -/

/-- The **form of a declaration**: the tokens `t :: ts` begin with one that has the tokens `left` in
front of its colon and the value `core` behind it, and `following` behind its end. -/
structure DeclarationForm (g : Grammar) (t : Token) (ts left : List Token) (colon : Token)
    (front core back following : List Token) : Prop where
  kind : t.kind ≠ .comment ∧ t.kind ≠ .atWord ∧ ¬ (t.kind = .lineComment ∧ g.inlineComments)
  ends : cutOutside Token.endsStatement 0 (t :: ts) =
    (left ++ colon :: (front ++ core ++ back), following)
  colon : cutOutside (fun u => u.kind = .colon) 0 (left ++ colon :: (front ++ core ++ back)) =
    (left, colon :: (front ++ core ++ back))
  trim : trimBlanks (front ++ core ++ back) = ⟨front, core, back⟩
  unopened : ∀ u rest, Ending.ofTokens following ≠ .brace u rest

section

variable {g : Grammar} {lines : LineMap} {before : Text} {t colon : Token}
  {ts ts' left front core back following u v mid mid' rest : List Token} {r : Read} {d : Declaration}
  {terminated : Bool}

/-- What has the form of a declaration is read as one. -/
theorem DeclarationForm.readStatement_eq
    (h : DeclarationForm g t ts left colon front core back following) (lines : LineMap)
    (before : Text) :
    readStatement g lines before t ts = .ok (readDeclaration lines before t.start left colon
      (front ++ core ++ back) (.ofTokens following)) := by
  have hread : readStatement g lines before t ts =
      readRuleOrDeclaration g lines before t (left ++ colon :: (front ++ core ++ back))
        (.ofTokens following) := by
    rw [readStatement]
    split
    · next hk => exact absurd hk h.kind.1
    · next hk => exact absurd hk h.kind.2.1
    · rw [if_neg h.kind.2.2, h.ends]
  rw [hread]
  unfold readRuleOrDeclaration
  split
  · next u rest hopen => exact absurd hopen (h.unopened u rest)
  · rw [h.colon]

/-- What is read as a declaration has the form of one. -/
theorem exists_form_of_readStatement (h : readStatement g lines before t ts = .ok r)
    (hr : r.statement = .whole (.declaration d) terminated) :
    ∃ left colon front core back following,
      DeclarationForm g t ts left colon front core back following := by
  rw [readStatement] at h
  split at h
  · cases h
    simp [readComment] at hr
  · cases h
    unfold readAtRule at hr
    split at hr <;> simp at hr
  next hcomment hat =>
  split at h
  · cases h
    simp [readComment] at hr
  next hinline =>
  unfold readRuleOrDeclaration at h
  dsimp only at h
  split at h
  · cases h
    simp at hr
  next hopen =>
  split at h
  · next left colon right hcolon =>
      have hinner := (cutOutside_eq_iff.1 hcolon).1
      have hright := trimBlanks_append right
      refine ⟨left, colon, (trimBlanks right).front, (trimBlanks right).core, (trimBlanks right).back,
        _, ⟨hcomment, hat, hinline⟩, ?_, ?_, ?_, hopen⟩
      · rw [hright, ← hinner]
      · rw [hright, ← hinner, hcolon]
      · rw [hright]
  · split at h
    · cases h
      simp at hr
    · contradiction

/-- Blanks stand between the colon of a declaration and its value. -/
theorem DeclarationForm.isSpace_of_mem_front {k : Token}
    (h : DeclarationForm g t ts left colon front core back following) (hk : k ∈ front) :
    k.isSpace = true := by
  have hfront : (trimBlanks (front ++ core ++ back)).front = front := by rw [h.trim]
  rw [← hfront] at hk
  exact List.all_eq_true.1 List.all_takeWhile k hk

/-- Blanks stand behind the value of a declaration. -/
theorem DeclarationForm.isSpace_of_mem_back {k : Token}
    (h : DeclarationForm g t ts left colon front core back following) (hk : k ∈ back) :
    k.isSpace = true := by
  have hback : (trimBlanks (front ++ core ++ back)).back = back := by rw [h.trim]
  rw [← hback] at hk
  exact Sheet.isSpace_of_mem_back hk

/-- **Inert tokens in a value can be replaced** by inert tokens. -/
theorem DeclarationForm.replace
    (h : DeclarationForm g t ts left colon front (u ++ mid ++ v) back following) (hmid : Inert mid)
    (hmid' : Inert mid')
    (hts : t :: ts' = left ++ colon :: (front ++ (u ++ mid' ++ v) ++ back) ++ following) :
    DeclarationForm g t ts' left colon front (u ++ mid' ++ v) back following := by
  obtain ⟨-, hpasses, hends⟩ := cutOutside_eq_iff.1 h.ends
  obtain ⟨-, hleft, hcolon⟩ := cutOutside_eq_iff.1 h.colon
  have hcut : ∀ m, left ++ colon :: (front ++ (u ++ m ++ v) ++ back) =
      (left ++ colon :: front ++ u) ++ m ++ (v ++ back) := by simp
  have hsolid : Solid (u ++ mid ++ v) := by
    have hcore : (trimBlanks (front ++ (u ++ mid ++ v) ++ back)).core = u ++ mid ++ v := by
      rw [h.trim]
    have hne : u ++ mid ++ v ≠ [] := by
      obtain ⟨k, ks, rfl, -⟩ := hmid.solid.first
      simp
    rw [← hcore] at hne ⊢
    exact solid_core_trimBlanks hne
  refine ⟨h.kind, ?_, ?_, trimBlanks_of_solid (hsolid.replace hmid'.solid)
    (fun _ => h.isSpace_of_mem_front) (fun _ => h.isSpace_of_mem_back), h.unopened⟩
  · simp only [hcut, passes_append, depthAfterAll_append, hmid.closed] at hpasses hends
    simp only [cutOutside_eq_iff, hcut, passes_append, depthAfterAll_append, hmid'.closed]
    exact ⟨by rw [hts, hcut], ⟨⟨hpasses.1.1, hmid'.passes _⟩, hpasses.2⟩, hends⟩
  · exact cutOutside_eq_iff.2 ⟨rfl, hleft, hcolon⟩

/-- The value of a declaration is what stands between the blanks behind its colon. -/
theorem value_of_readDeclaration {right : List Token} {start : Nat} {ending : Ending}
    (hright : trimBlanks right = ⟨front, core, back⟩)
    (h : readDeclaration lines before start left colon right ending =
      ⟨.whole (.declaration d) terminated, rest⟩) : d.value = texts core := by
  cases ending with
  | semicolon k rest =>
      simp only [readDeclaration, hright] at h
      split at h <;> cases h <;> rfl
  | brace k rest | outside rest =>
      simp only [readDeclaration, hright] at h
      cases h
      rfl

/-- What is read of declarations that differ in their values only differs in these and in places
only. -/
theorem exists_readDeclaration {right right' core' : List Token}
    (hright : trimBlanks right = ⟨front, core, back⟩) (hcore : core ≠ [])
    (hright' : trimBlanks right' = ⟨front, core', back⟩) (hcore' : core' ≠ []) (lines : LineMap)
    (before : Text) (start : Nat) (left : List Token) (colon : Token) (ending : Ending) :
    ∃ d terminated rest source,
      readDeclaration lines before start left colon right ending =
        ⟨.whole (.declaration d) terminated, rest⟩ ∧
      readDeclaration lines before start left colon right' ending =
        ⟨.whole (.declaration { d with value := texts core', source := source }) terminated, rest⟩ ∧
      d.value = texts core ∧ d.before = some before ∧
      d.prop ++ d.between.getD [] = texts (left ++ colon :: front) := by
  have hleft := congrArg texts (cutBlanks_append left)
  simp only [Token.texts_append] at hleft
  cases ending with
  | semicolon u rest =>
      simp only [readDeclaration, hright, hright', List.isEmpty_iff, hcore, hcore', if_false]
      exact ⟨_, _, _, _, rfl, rfl, rfl, rfl, by simp [← hleft]⟩
  | brace u rest | outside rest =>
      simp only [readDeclaration, hright, hright']
      exact ⟨_, _, _, _, rfl, rfl, rfl, rfl, by simp [← hleft]⟩

end

/-! ### Style sheets of one declaration -/

namespace Parse

/-- Blanks and stray semicolons in front of what is read. -/
def isPending (k : Token) : Bool :=
  k.kind = .space ∨ k.kind = .semicolon

/-- Spaces and semicolons are all that can be pending. -/
theorem kind_of_isPending {k : Token} (h : isPending k = true) :
    k.kind = .space ∨ k.kind = .semicolon := by
  simpa [isPending] using h

/-- A space can be pending. -/
theorem isPending_of_isSpace {k : Token} (h : k.isSpace = true) : isPending k = true := by
  simp [isPending, Token.kind_of_isSpace h]

variable {g : Grammar} {lines : LineMap} {p : Parse} {ts us pend rest : List Token} {t : Token}
  {b : Body} {d : Declaration}

/-- Blanks and stray semicolons are left pending. -/
theorem run_pending (hpend : ∀ k ∈ pend, isPending k = true) (g : Grammar) (lines : LineMap)
    (p : Parse) (ts : List Token) :
    p.run g lines (pend ++ ts) =
      Parse.run g lines { p with body := { p.body with pending := p.body.pending ++ texts pend } }
        ts := by
  induction pend generalizing p with
  | nil => simp
  | cons k pend ih =>
      obtain ⟨hk, hpend⟩ := List.forall_mem_cons.1 hpend
      have hstep : p.step g lines k (pend ++ ts) =
          .ok ({ p with body := { p.body with pending := p.body.pending ++ k.text } }, pend ++ ts) := by
        rcases kind_of_isPending hk with hk | hk <;> simp [step, hk]
      rw [List.cons_append, run_cons, hstep]
      refine (ih hpend _).trans ?_
      simp

/-- A whole statement at the start is a node in front of all that is read behind it. -/
theorem run_whole {n : Node} {terminated : Bool} (hpend : ∀ k ∈ pend, isPending k = true)
    (hstep : ∀ p : Parse, p.step g lines t us =
      (readStatement g lines p.body.pending t us).map fun r => (p.accept r.statement, r.rest))
    (hread : readStatement g lines (texts pend) t us = .ok ⟨.whole n terminated, rest⟩) :
    Parse.run g lines {} (pend ++ t :: us) =
      (Parse.run g lines { body := { semicolon := terminated } } rest).map fun c =>
        { c with nodes := c.nodes ++ [n] } := by
  rw [← run_onto, run_pending hpend, run_cons, hstep]
  simp [hread, Except.map, Except.bind, accept, push, onto]

/-- Reading on leaves the nodes that there are. -/
theorem exists_nodes_eq (h : p.run g lines ts = .ok b) (hp : p.blocks = []) :
    ∃ ns, b.nodes = ns ++ p.body.nodes := by
  obtain ⟨⟨nodes, pending, semicolon⟩, blocks⟩ := p
  obtain rfl : blocks = [] := hp
  have honto := run_onto g lines nodes { body := { pending := pending, semicolon := semicolon } } ts
  rw [onto] at honto
  obtain ⟨c, -, rfl⟩ := map_eq_ok_iff.1 (honto.symm.trans h)
  exact ⟨c.nodes, rfl⟩

/-- A block that is open when reading goes on becomes a node, and no declaration. -/
theorem exists_block_mem {p : Parse} {ts : List Token} (h : p.run g lines ts = .ok b)
    (hp : p.blocks ≠ []) : ∃ n ∈ b.nodes, ∀ d, n ≠ .declaration d := by
  match ts with
  | [] =>
      rw [run] at h
      split at h
      · next hnil => exact absurd hnil hp
      · contradiction
  | t :: ts =>
      rw [run_cons] at h
      cases hq : p.step g lines t ts with
      | error e => simp [hq, Except.bind] at h
      | ok q =>
          replace h : q.1.run g lines q.2 = .ok b := by simpa [hq, Except.bind] using h
          by_cases hblocks : q.1.blocks = []
          · -- the last block has just been closed
            obtain ⟨n, ns, hnodes, hn⟩ : ∃ n ns, q.1.body.nodes = n :: ns ∧
                ∀ d, n ≠ .declaration d := by
              rw [step] at hq
              split at hq
              · cases hq
                exact absurd hblocks hp
              · cases hq
                exact absurd hblocks hp
              · split at hq
                · contradiction
                · next o os ho =>
                    cases hq
                    refine ⟨_, _, rfl, fun d => ?_⟩
                    rw [OpenBlock.close]
                    cases o.head <;> simp
              · obtain ⟨r, -, rfl⟩ := map_eq_ok_iff.1 hq
                cases hr : r.statement with
                | whole n terminated =>
                    rw [hr] at hblocks
                    exact absurd hblocks hp
                | opening head start brace => simp [hr, accept] at hblocks
            obtain ⟨ms, hms⟩ := exists_nodes_eq h hblocks
            exact ⟨n, by simp [hms, hnodes], hn⟩
          · have := length_snd_step_le hq
            exact exists_block_mem h hblocks
termination_by ts.length

/-- What is read of a style sheet of one declaration, up to the end of that. -/
theorem exists_declaration_of_run (h : Parse.run g lines {} ts = .ok b)
    (hb : b.nodes = [.declaration d]) :
    ∃ pend t us terminated rest c, ts = pend ++ t :: us ∧
      (∀ k ∈ pend, isPending k = true) ∧
      (∀ p : Parse, ∀ us, p.step g lines t us =
        (readStatement g lines p.body.pending t us).map fun r => (p.accept r.statement, r.rest)) ∧
      readStatement g lines (texts pend) t us = .ok ⟨.whole (.declaration d) terminated, rest⟩ ∧
      Parse.run g lines { body := { semicolon := terminated } } rest = .ok c ∧ c.nodes = [] ∧
      b = { c with nodes := [.declaration d] } := by
  have hpend : ∀ k ∈ ts.takeWhile isPending, isPending k = true := fun k hk =>
    List.all_eq_true.1 List.all_takeWhile k hk
  have hsplit := (List.takeWhile_append_dropWhile (p := isPending) (l := ts)).symm
  rw [hsplit] at h
  have hhead := List.head?_dropWhile_not isPending ts
  generalize ts.takeWhile isPending = pend at *
  generalize ts.dropWhile isPending = rest at *
  cases rest with
  | nil =>
      rw [run_pending hpend, run] at h
      cases h
      contradiction
  | cons t us =>
      obtain ⟨hspace, hsemicolon⟩ : t.kind ≠ .space ∧ t.kind ≠ .semicolon := by
        simpa [isPending] using hhead
      have hclose : t.kind ≠ .closeCurly := by
        intro hk
        simp [run_pending hpend, run_cons, step, hk, Except.bind] at h
      have hstep : ∀ p : Parse, ∀ us, p.step g lines t us =
          (readStatement g lines p.body.pending t us).map
            fun r => (p.accept r.statement, r.rest) := by
        intro p us
        rw [step]
        split <;> simp_all
      cases hr : readStatement g lines (texts pend) t us with
      | error e => simp [run_pending hpend, run_cons, hstep, hr, Except.map, Except.bind] at h
      | ok r =>
          obtain ⟨statement, rest⟩ := r
          cases statement with
          | opening head start brace =>
              simp only [run_pending hpend, run_cons, hstep, List.nil_append, hr, Except.map,
                Except.bind] at h
              obtain ⟨n, hn, hne⟩ := exists_block_mem h (by simp [accept])
              rw [hb, List.mem_singleton] at hn
              exact absurd hn (hne d)
          | whole n terminated =>
              rw [run_whole hpend (hstep · us) hr] at h
              obtain ⟨c, hc, rfl⟩ := map_eq_ok_iff.1 h
              obtain ⟨hnil, hn⟩ : c.nodes = [] ∧ [n] = [.declaration d] := by
                cases hnodes : c.nodes <;> simp_all
              obtain rfl : n = .declaration d := (List.cons.inj hn).1
              exact ⟨pend, t, us, terminated, rest, c, hsplit, hpend, hstep, hr, hc, hnil,
                by rw [hnil]; rfl⟩

/-- **Inert tokens in the value can be replaced**: in a style sheet of one declaration the tokens of
its value stand behind its colon, and inert tokens among them can be replaced by others. Only the value
changes. -/
theorem exists_core_of_run (h : Parse.run g lines {} ts = .ok b) (hb : b.nodes = [.declaration d])
    (hvalue : d.value ≠ []) :
    ∃ ahead core behind, ts = ahead ++ core ++ behind ∧ d.value = texts core ∧
      texts ahead = d.before.getD [] ++ d.prop ++ d.between.getD [] ∧
      (∃ k ∈ ahead.getLast?, k.kind = .colon ∨ k.isSpace = true) ∧
      ∀ u mid v mid', core = u ++ mid ++ v → Inert mid → Inert mid' → ∃ source,
        Parse.run g lines {} (ahead ++ (u ++ mid' ++ v) ++ behind) = .ok { b with nodes :=
          [.declaration { d with value := texts (u ++ mid' ++ v), source := source }] } := by
  obtain ⟨pend, t, us, terminated, rest, c, rfl, hpend, hstep, hread, hc, hnil, rfl⟩ :=
    exists_declaration_of_run h hb
  obtain ⟨left, colon, front, core, back, following, hform⟩ := exists_form_of_readStatement hread rfl
  have hus := (cutOutside_eq_iff.1 hform.ends).1
  rw [hform.readStatement_eq lines, Except.ok.injEq] at hread
  have hcore : core ≠ [] := by
    rintro rfl
    exact hvalue (value_of_readDeclaration hform.trim hread)
  have hdeclaration := fun core' hright' hcore' =>
    @exists_readDeclaration front core back _ (front ++ core' ++ back) core' hform.trim hcore hright'
      hcore' lines (texts pend) t.start left colon (.ofTokens following)
  obtain ⟨d', terminated', rest', -, hread', -, hval, hbefore, hfront⟩ :=
    hdeclaration core hform.trim hcore
  obtain ⟨⟨rfl, rfl⟩, rfl⟩ : (d = d' ∧ terminated = terminated') ∧ rest = rest' := by
    simpa using hread.symm.trans hread'
  refine ⟨pend ++ (left ++ colon :: front), core, back ++ following, by rw [hus]; simp, hval, ?_, ?_,
    ?_⟩
  · rw [Token.texts_append, hbefore, List.append_assoc, hfront]
    rfl
  · have hcolon : colon.kind = .colon := by
      simpa using ((cutOutside_eq_iff.1 hform.colon).2.2 colon rfl).2
    rcases List.eq_nil_or_concat' front with rfl | ⟨ks, k, rfl⟩
    · exact ⟨colon, by simp, Or.inl hcolon⟩
    · exact ⟨k, by simp [List.getLast?_append, List.getLast?_cons],
        Or.inr (hform.isSpace_of_mem_front (by simp))⟩
  · rintro u mid v mid' rfl hmid hmid'
    obtain ⟨us', hus'⟩ : ∃ us',
        t :: us' = left ++ colon :: (front ++ (u ++ mid' ++ v) ++ back) ++ following := by
      cases left with
      | nil => exact ⟨_, by rw [(List.cons.inj hus).1]; rfl⟩
      | cons k left => exact ⟨_, by rw [(List.cons.inj hus).1]; rfl⟩
    have hform' := hform.replace hmid hmid' hus'
    obtain ⟨k, ks, rfl, -⟩ := hmid'.solid.first
    obtain ⟨d', terminated', rest', source, hread', hread'', -⟩ :=
      hdeclaration _ hform'.trim (by simp)
    obtain ⟨⟨rfl, rfl⟩, rfl⟩ : (d = d' ∧ terminated = terminated') ∧ rest = rest' := by
      simpa using hread.symm.trans hread'
    refine ⟨source, ?_⟩
    have hall : pend ++ (left ++ colon :: front) ++ (u ++ k :: ks ++ v) ++ (back ++ following) =
        pend ++ t :: us' := by
      rw [hus']
      simp
    have hread := hform'.readStatement_eq lines (texts pend)
    rw [hread''] at hread
    rw [hall, run_whole hpend (hstep · us') hread, hc]
    simp [Except.map, hnil]

end Parse

/-- **Inert tokens in the value can be replaced**: a text of one declaration, with other inert tokens
in the value, is that declaration with another value. -/
theorem exists_core_of_parse {g : Grammar} {t : Text} {ts : List Token} {root : Root} {d : Declaration}
    (hts : Token.tokenize t = .ok ts) (hroot : parse g t = .ok root)
    (hd : root.nodes = [.declaration d]) (hvalue : d.value ≠ []) :
    ∃ ahead core behind, ts = ahead ++ core ++ behind ∧ d.value = texts core ∧
      texts ahead = d.before.getD [] ++ d.prop ++ d.between.getD [] ∧
      (∃ k ∈ ahead.getLast?, k.kind = .colon ∨ k.isSpace = true) ∧
      ∀ u mid v mid', core = u ++ mid ++ v → Inert mid → Inert mid' →
        ∀ (lines : LineMap) (t' : Text) (ts' : List Token),
          Token.tokenizeFrom lines 0 t' = .ok ts' →
          ts'.map Token.unplaced = (ahead ++ (u ++ mid' ++ v) ++ behind).map Token.unplaced →
          parseUnplaced g t' = .ok { root with nodes :=
            [.declaration { d with value := texts (u ++ mid' ++ v) }] }.unplaced := by
  rw [parse_eq, hts] at hroot
  obtain ⟨b, hb, rfl⟩ := map_eq_ok_iff.1 hroot
  have hnodes : b.nodes = [.declaration d] := by
    have := congrArg List.reverse hd
    simpa [Body.toRoot] using this
  obtain ⟨ahead, core, behind, hall, hcore, hahead, hlast, hreplace⟩ :=
    Parse.exists_core_of_run hb hnodes hvalue
  refine ⟨ahead, core, behind, hall, hcore, hahead, hlast,
    fun u mid v mid' hsplit hmid hmid' lines t' ts' hts' hunplaced => ?_⟩
  obtain ⟨source, hrun⟩ := hreplace u mid v mid' hsplit hmid hmid'
  have hcongr := @Parse.run_congr {} {} _ _ rfl hunplaced g lines (LineMap.ofText t)
  rw [hrun] at hcongr
  rw [parseUnplaced_eq g lines 0, hts']
  refine (unplacedWith_map (fun _ _ h => Body.unplaced_toRoot h none none) hcongr).trans ?_
  simp [unplacedWith, Except.map, Body.toRoot, Root.unplaced, Node.unplacedAll, Node.unplaced]

end StyleBlocks.Sheet
