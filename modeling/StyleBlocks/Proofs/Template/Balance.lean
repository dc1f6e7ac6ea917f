import Mathlib.Logic.Relation
import StyleBlocks.Proofs.Template.CallStack

/-!
# Balance of levels and calls

The calls that read templates share one stack of levels, push a hole for each call of the loop and
rely on the loop to take it off again. That works whatever stands in the code: closing brackets
that close nothing are passed over, so a level is left by a bracket of its own kind alone, and the
innermost hole by a brace when nothing is open above it.

The number of holes on the stack of levels is the number of calls for holes, and what is open in
front of a template stays below all that the template opens. From the two it follows that the
brace that ends a call for a hole takes off the hole that was pushed for this call.

## Main definitions

* `Machine.Effect`: what a step does to the levels and the calls.
* `Machine.IsBalanced`: there are as many holes as calls for holes, and a bottom.
* `Machine.During`: what the machine comes to while a template is read.

## Main results

* `Machine.effect_of_next?`: every step has one of the effects.
* `Machine.IsBalanced.step`: a step leaves the machine balanced.
* `Machine.encloses_of_during`: what is open in front of a template stays as it is while that is
  read.
* `Machine.balanced_around_templates`: all of this for the machine on any source.
-/

namespace StyleBlocks.Machine

open Template

/-! ### Effects -/

/-- Applies a function to the statement of an entry. -/
def Entry.modify (f : Statement → Statement) (e : Entry) : Entry :=
  { e with statement := f e.statement }

/-- Levels **touch** others if these differ from them in the statement of the innermost level at
most. -/
def Touch (es es' : List Entry) : Prop :=
  ∃ f, es' = es.modifyHead (Entry.modify f)

namespace Touch

variable {es es' es'' : List Entry}

/-- Levels touch themselves. -/
theorem refl (es : List Entry) : Touch es es :=
  ⟨id, by cases es <;> rfl⟩

/-- Levels that touch levels that touch others touch these. -/
theorem trans (h : Touch es es') (h' : Touch es' es'') : Touch es es'' := by
  obtain ⟨f, rfl⟩ := h
  obtain ⟨g, rfl⟩ := h'
  exact ⟨g ∘ f, by cases es <;> rfl⟩

/-- A change to the statement touches the levels. -/
theorem modifyStatement (f : Statement → Statement) (s : Scan) :
    Touch s.levels (s.modifyStatement f).levels := by
  refine ⟨f, ?_⟩
  rw [Scan.modifyStatement]
  split
  · next hl => rw [hl]; rfl
  · next hl => rw [hl]; rfl

/-- A line break touches the levels. -/
theorem breakLine (s : Scan) : Touch s.levels s.breakLine.levels := by
  rw [Scan.breakLine]
  split
  · exact .refl _
  · split
    · exact .modifyStatement _ s
    · exact .refl _

/-- Taking note of a lexeme touches the levels. -/
theorem settle (k : LexemeKind) (text : Text) (s : Scan) :
    Touch s.levels (s.settle k text).levels := by
  unfold Scan.settle
  extract_lets allowed t
  have ht : t.levels = s.levels := rfl
  split
  · exact .refl _
  · exact .refl _
  · exact ht ▸ .modifyStatement _ t

/-- Levels that are touched stay of their kinds. -/
theorem map_kind (h : Touch es es') : es'.map Entry.kind = es.map Entry.kind := by
  obtain ⟨f, rfl⟩ := h
  cases es <;> rfl

/-- The level that is touched is of the same kind, with the same levels below it. -/
theorem exists_of_cons {e : Entry} (h : Touch es (e :: es')) :
    ∃ e', es = e' :: es' ∧ e'.kind = e.kind := by
  obtain ⟨f, h⟩ := h
  cases es with
  | nil => contradiction
  | cons e' es =>
      obtain ⟨rfl, rfl⟩ := List.cons.inj h
      exact ⟨e', rfl, rfl⟩

/-- The innermost level is touched in its statement, and those below it are not touched. -/
theorem exists_cons {e : Entry} (h : Touch (e :: es) es') :
    ∃ st, es' = { e with statement := st } :: es := by
  obtain ⟨f, rfl⟩ := h
  exact ⟨_, rfl⟩

end Touch

/-- **A call for a hole returns**: a brace takes the innermost level off, a hole, and the template
that waits for the innermost call goes on behind it. -/
structure Leaves (lines : LineMap) (m m' : Machine) : Prop where
  /-- The brace. -/
  rest : m.rest = '}' :: m'.rest
  /-- The hole. -/
  levels : ∃ hole, m.scan.levels = hole :: m'.scan.levels ∧ hole.kind = .hole
  /-- The call and its template. -/
  calls : ∃ call, m.calls = call :: m'.calls ∧ m'.control = .literal
    (call.template.addHole ⟨⟨call.start, m.offset⟩, lines.position call.start⟩)

/-- What a step **does to the levels and the calls**. -/
inductive Effect (lines : LineMap) (m m' : Machine) : Prop
  /-- The loop acts on the statement of the innermost level. -/
  | within (before : m.control = .code ∨ m.control = .returned) (after : m'.control = .code)
      (calls : m'.calls = m.calls) (levels : Touch m.scan.levels m'.scan.levels)
  /-- The loop calls the reading of a template. -/
  | template {u : Unclosed} (before : m.control = .code) (after : m'.control = .literal u)
      (calls : m'.calls = m.calls) (levels : Touch m.scan.levels m'.scan.levels)
  /-- The loop opens a level that is no hole. -/
  | opening {e : Entry} {es : List Entry} (before : m.control = .code) (after : m'.control = .code)
      (calls : m'.calls = m.calls) (kind : e.kind ≠ .hole ∧ e.kind ≠ .top)
      (below : Touch m.scan.levels es) (levels : m'.scan.levels = e :: es)
  /-- The loop takes off a level that is no hole, or a hole while there is no call for one. -/
  | closing {e : Entry} {es : List Entry} (before : m.control = .code) (after : m'.control = .code)
      (calls : m'.calls = m.calls) (kind : e.kind ≠ .top) (hole : e.kind = .hole → m.calls = [])
      (levels : m.scan.levels = e :: es) (below : Touch es m'.scan.levels)
  /-- The loop takes off a hole and returns to the template. -/
  | leaving (before : m.control = .code) (leaves : Leaves lines m m')
  /-- The reading of a template pushes a hole and calls the loop. -/
  | hole {u : Unclosed} {call : Call} (before : m.control = .literal u) (after : m'.control = .code)
      (calls : m'.calls = call :: m.calls)
      (levels : m'.scan.levels = { kind := .hole } :: m.scan.levels)
  /-- The reading of a template returns. -/
  | returning {u : Unclosed} (before : m.control = .literal u) (after : m'.control = .returned)
      (calls : m'.calls = m.calls) (levels : m'.scan.levels = m.scan.levels)

section

variable {lines : LineMap} {m m' : Machine} {c : Char} {t : Text} {k : LexemeKind}

/-- No closing bracket is the counterpart of a hole. -/
theorem Kind.ofCloser_ne_hole (k : LexemeKind) : Kind.ofCloser k ≠ .hole := by
  cases k <;> simp [ofCloser]

/-- A closing bracket takes the innermost level off, a hole only if it is a brace. -/
theorem closeLevel?_eq_some {s left : Scan} {e : Entry} (h : s.closeLevel? k = some (e, left)) :
    s.levels = e :: left.levels ∧ e.kind ≠ .top ∧ (e.kind = .hole → k = .closeBrace) := by
  rw [Scan.closeLevel?] at h
  split at h
  · contradiction
  · next e' es hl =>
      split at h
      · next hmatch =>
          obtain ⟨hkind, htop⟩ := hmatch
          cases h
          refine ⟨hl, htop, fun hhole => ?_⟩
          rcases hkind with hexpected | ⟨hk, -⟩
          · exact absurd (hexpected.symm.trans hhole) (Kind.ofCloser_ne_hole k)
          · exact hk
      · contradiction

/-- What reading a literal part does. -/
theorem effect_of_readLiteral {u : Unclosed} (hm : m.control = .literal u)
    (h : m.readLiteral lines u = .ok m') : Effect lines m m' := by
  simp only [readLiteral] at h
  split at h
  · contradiction
  · split at h
    · cases h
      exact .returning hm rfl rfl rfl
    · cases h
      exact .hole hm rfl rfl rfl

/-- What acting on a closing bracket does. -/
theorem effect_of_readClosing {n : Machine} {text : Text} {start : Nat} (hm : m.control = .code)
    (hcontrol : n.control = .code) (hcalls : n.calls = m.calls)
    (hlevels : Touch m.scan.levels n.scan.levels) (hstart : start = m.offset)
    (hrest : k = .closeBrace → m.rest = '}' :: n.rest) :
    Effect lines m (n.readClosing lines k text start) := by
  rw [readClosing]
  split
  · exact .within (Or.inl hm) hcontrol hcalls (hlevels.trans (.settle k text _))
  · next e left hclose =>
      obtain ⟨hl, htop, hbrace⟩ := closeLevel?_eq_some hclose
      rw [hl] at hlevels
      obtain ⟨e', he'⟩ := hlevels.exists_of_cons
      split
      · next hhole =>
          split
          · next hnil =>
              exact .closing hm hcontrol hcalls (he'.2 ▸ htop) (fun _ => hcalls ▸ hnil) he'.1
                (.settle k text left)
          · next call calls hcall =>
              refine .leaving hm
                ⟨hrest (hbrace hhole), ⟨e', he'.1, he'.2.trans hhole⟩, call, ?_, ?_⟩
              · rw [← hcalls, hcall]
              · rw [hstart]
      · next hhole =>
          refine .closing hm hcontrol hcalls (he'.2 ▸ htop) (fun h => ?_) he'.1 ?_
          · exact absurd (he'.2 ▸ h) hhole
          · exact .settle k text (left.leave e)

/-- What acting on a lexeme that is not trivia does. -/
theorem effect_of_readCode {n : Machine} {text : Text} (hm : m.control = .code)
    (hcontrol : n.control = .code) (hcalls : n.calls = m.calls) (hscan : n.scan = m.scan)
    (hrest : k = .closeBrace → m.rest = '}' :: n.rest) :
    Effect lines m (n.readCode lines k text m.offset) := by
  have hmeet := Touch.modifyStatement (Statement.meet k) m.scan
  -- Most lexemes act on the innermost statement and settle.
  have settled : ∀ {s : Scan} {o : Nat} {rest : Text},
      Touch (m.scan.modifyStatement (Statement.meet k)).levels s.levels →
      Effect lines m ⟨s.settle k text, n.calls, n.control, o, rest⟩ := fun hs =>
    .within (Or.inl hm) hcontrol hcalls ((hmeet.trans hs).trans (.settle k text _))
  have opens : ∀ {kind : Kind} {keeps : Bool}, kind ≠ .hole ∧ kind ≠ .top →
      Effect lines m
        { n with
          scan :=
            ((m.scan.modifyStatement (Statement.meet k)).openLevel kind keeps).settle k text } := by
    intro kind keeps hkind
    obtain ⟨st, hst⟩ := Touch.exists_cons (Touch.settle k text
      ((m.scan.modifyStatement (Statement.meet k)).openLevel kind keeps))
    exact .opening hm hcontrol hcalls hkind hmeet hst
  simp only [readCode, hscan]
  cases k with
  | identifier | privateName | dot | optionalChain => exact settled (.refl _)
  | openParen | openBracket | openBrace => exact opens (by decide)
  | closeParen | closeBracket | closeBrace =>
      exact effect_of_readClosing hm hcontrol hcalls hmeet rfl hrest
  | backtick => exact .template hm rfl hcalls hmeet
  | slash => exact settled (.refl _)
  | lessThan =>
      dsimp only
      split <;> exact settled (.refl _)
  | semicolon | comma => exact settled (.modifyStatement _ _)
  | _ => exact settled (.refl _)

/-- What reading a lexeme does. -/
theorem effect_of_readLexeme (hm : m.control = .code) (hrest : m.rest = c :: t) :
    Effect lines m (m.readLexeme lines c t) := by
  have hwithin : ∀ {s : Scan} {o : Nat} {rest : Text}, Touch m.scan.levels s.levels →
      Effect lines m ⟨s, m.calls, m.control, o, rest⟩ := fun hs =>
    .within (Or.inl hm) hm rfl hs
  simp only [readLexeme]
  split
  · exact hwithin (.refl _)
  · exact hwithin (.refl _)
  · exact hwithin (.refl _)
  · exact hwithin (.breakLine _)
  · exact hwithin (.modifyStatement _ _)
  · next k _ _ _ _ hk =>
      refine effect_of_readCode hm hm rfl rfl fun hbrace => ?_
      obtain rfl := eq_of_kind_closeBrace (hbrace ▸ hk)
      exact hrest

/-- **Every step has one of the effects.** -/
theorem effect_of_next? (h : m.next? lines = .ok (some m')) : Effect lines m m' := by
  simp only [next?] at h
  split at h
  · next hcontrol =>
      cases h
      exact .within (Or.inr hcontrol) rfl rfl (.settle _ _ _)
  · next u hcontrol =>
      cases hr : m.readLiteral lines u with
      | error e => simp [hr, Except.map] at h
      | ok r =>
          simp only [hr, Except.map, Except.ok.injEq, Option.some.injEq] at h
          exact h ▸ effect_of_readLiteral hcontrol hr
  · next hcontrol =>
      split at h
      · next c t hrest =>
          simp only [Except.ok.injEq, Option.some.injEq] at h
          exact h ▸ effect_of_readLexeme hcontrol hrest
      · split at h <;> simp at h

end

/-! ### As many holes as calls -/

/-- The machine is **balanced**: the bottom of the stack of levels is the program as a whole, which
stands nowhere else on it, and there are as many holes on it as calls for holes are active. -/
structure IsBalanced (m : Machine) : Prop where
  /-- The bottom. -/
  bottom : ∃ above, m.scan.kinds = above ++ [.top] ∧ .top ∉ above
  /-- The holes. -/
  holes : m.scan.kinds.count .hole = m.calls.length

namespace IsBalanced

variable {lines : LineMap} {m m' : Machine}

/-- The machine starts balanced. -/
theorem start (source : Text) : (start source).IsBalanced where
  bottom := ⟨[], rfl, by simp⟩
  holes := rfl

/-- The kinds of the levels and the number of calls tell if the machine is balanced. -/
theorem of_eq (h : m.IsBalanced) (hkinds : m'.scan.kinds = m.scan.kinds)
    (hcalls : m'.calls = m.calls) : m'.IsBalanced where
  bottom := hkinds ▸ h.bottom
  holes := by rw [hkinds, hcalls, h.holes]

/-- Something above the bottom can be taken off. -/
theorem bottom_of_cons {e : Entry} {es : List Entry} (h : m.IsBalanced)
    (hlevels : m.scan.levels = e :: es) (he : e.kind ≠ .top) :
    ∃ above, es.map Entry.kind = above ++ [.top] ∧ .top ∉ above := by
  obtain ⟨above, habove, htop⟩ := h.bottom
  rw [Scan.kinds_of_levels hlevels] at habove
  cases above with
  | nil => exact absurd (List.cons.inj habove).1 he
  | cons kind above =>
      exact ⟨above, (List.cons.inj habove).2, fun hmem => htop (List.mem_cons_of_mem _ hmem)⟩

/-- **A step leaves the machine balanced.** -/
theorem step (h : m.IsBalanced) (heffect : Effect lines m m') : m'.IsBalanced := by
  have hholes := h.holes
  cases heffect with
  | within _ _ hcalls hlevels | template _ _ hcalls hlevels =>
      exact h.of_eq hlevels.map_kind hcalls
  | returning _ _ hcalls hlevels => exact h.of_eq (congrArg (List.map Entry.kind) hlevels) hcalls
  | @opening e _ _ _ hcalls hkind hbelow hlevels =>
      obtain ⟨above, habove, htop⟩ := h.bottom
      have hkinds : m'.scan.kinds = e.kind :: m.scan.kinds :=
        (Scan.kinds_of_levels hlevels).trans (congrArg (e.kind :: ·) hbelow.map_kind)
      refine ⟨⟨e.kind :: above, ?_, ?_⟩, ?_⟩
      · rw [hkinds, habove, List.cons_append]
      · simp [htop, hkind.2.symm]
      · rw [hkinds, List.count_cons_of_ne hkind.1, hcalls, hholes]
  | @closing e es _ _ hcalls hkind hhole hlevels hbelow =>
      have hkinds : m'.scan.kinds = es.map Entry.kind := hbelow.map_kind
      rw [Scan.kinds_of_levels hlevels] at hholes
      refine ⟨hkinds ▸ h.bottom_of_cons hlevels hkind, ?_⟩
      by_cases he : e.kind = .hole
      · -- A hole on the stack means that there is a call for one.
        rw [he, List.count_cons_self, hhole he] at hholes
        contradiction
      · rw [List.count_cons_of_ne he] at hholes
        rw [hkinds, hcalls, hholes]
  | leaving _ hleaves =>
      obtain ⟨hole, hlevels, hkind⟩ := hleaves.levels
      obtain ⟨call, hcalls, -⟩ := hleaves.calls
      refine ⟨h.bottom_of_cons hlevels (by simp [hkind]), ?_⟩
      rw [Scan.kinds_of_levels hlevels, hkind, List.count_cons_self, hcalls,
        List.length_cons] at hholes
      exact Nat.succ.inj hholes
  | hole _ _ hcalls hlevels =>
      obtain ⟨above, habove, htop⟩ := h.bottom
      have hkinds : m'.scan.kinds = .hole :: m.scan.kinds := Scan.kinds_of_levels hlevels
      refine ⟨⟨.hole :: above, by rw [hkinds, habove, List.cons_append], ?_⟩, ?_⟩
      · simp [htop]
      · rw [hkinds, List.count_cons_self, hcalls, List.length_cons, hholes]

end IsBalanced

/-! ### While a template is read -/

/-- The machine steps from one state to another. -/
def Steps (lines : LineMap) (m m' : Machine) : Prop :=
  m.next? lines = .ok (some m')

/-- The reading of a template that goes on at `m` **has returned** at `a`. -/
def Returned (m a : Machine) : Prop :=
  a.control = .returned ∧ a.calls.length = m.calls.length

instance (m a : Machine) : Decidable (Returned m a) :=
  inferInstanceAs (Decidable (_ ∧ _))

/-- What the machine comes to from `m` on **during** the reading of the template that it reads
there, up to the return of that. -/
inductive During (lines : LineMap) (m : Machine) : Machine → Prop
  | entered : During lines m m
  | step {a b : Machine} (h : During lines m a) (going : ¬ Returned m a) (next : Steps lines a b) :
    During lines m b

/-- The hole of a template that has levels `base` below it, with `k` holes above it. -/
def HoleAbove (base : List Entry) (k : Nat) (es : List Entry) : Prop :=
  ∃ above hole, es = above ++ hole :: base ∧ hole.kind = .hole ∧ hole.saved = none ∧
    (above.map Entry.kind).count .hole = k

namespace HoleAbove

variable {base es es' : List Entry} {e : Entry} {k : Nat}

/-- Touching the levels leaves the hole where it is. -/
theorem touch (h : HoleAbove base k es) (ht : Touch es es') : HoleAbove base k es' := by
  obtain ⟨above, hole, rfl, hkind, hsaved, hcount⟩ := h
  obtain ⟨f, rfl⟩ := ht
  cases above with
  | nil => exact ⟨[], hole.modify f, rfl, hkind, hsaved, hcount⟩
  | cons e above => exact ⟨e.modify f :: above, hole, rfl, hkind, hsaved, hcount⟩

/-- A level that is opened and is no hole leaves as many holes above. -/
theorem push (h : HoleAbove base k es) (he : e.kind ≠ .hole) : HoleAbove base k (e :: es) := by
  obtain ⟨above, hole, rfl, hkind, hsaved, hcount⟩ := h
  refine ⟨e :: above, hole, rfl, hkind, hsaved, ?_⟩
  rw [List.map_cons, List.count_cons_of_ne he, hcount]

/-- A hole that is opened is one more above. -/
theorem pushHole (h : HoleAbove base k es) (he : e.kind = .hole) :
    HoleAbove base (k + 1) (e :: es) := by
  obtain ⟨above, hole, rfl, hkind, hsaved, hcount⟩ := h
  refine ⟨e :: above, hole, rfl, hkind, hsaved, ?_⟩
  rw [List.map_cons, he, List.count_cons_self, hcount]

/-- A level that is closed and is no hole leaves as many holes above. -/
theorem pop (h : HoleAbove base k (e :: es)) (he : e.kind ≠ .hole) : HoleAbove base k es := by
  obtain ⟨above, hole, hes, hkind, hsaved, hcount⟩ := h
  cases above with
  | nil => exact absurd ((List.cons.inj hes).1 ▸ hkind) he
  | cons e' above =>
      obtain ⟨rfl, rfl⟩ := List.cons.inj hes
      rw [List.map_cons, List.count_cons_of_ne he] at hcount
      exact ⟨above, hole, rfl, hkind, hsaved, hcount⟩

/-- A hole that is closed is one less above. -/
theorem popHole (h : HoleAbove base (k + 1) (e :: es)) (he : e.kind = .hole) :
    HoleAbove base k es := by
  obtain ⟨above, hole, hes, hkind, hsaved, hcount⟩ := h
  cases above with
  | nil => simp at hcount
  | cons e' above =>
      obtain ⟨rfl, rfl⟩ := List.cons.inj hes
      rw [List.map_cons, he, List.count_cons_self] at hcount
      exact ⟨above, hole, rfl, hkind, hsaved, by omega⟩

/-- **The last hole to be taken off is the hole of the template.** -/
theorem eq_of_last (h : HoleAbove base 0 (e :: es)) (he : e.kind = .hole) : es = base := by
  obtain ⟨above, hole, hes, -, -, hcount⟩ := h
  cases above with
  | nil => exact (List.cons.inj hes).2
  | cons e' above =>
      obtain ⟨rfl, -⟩ := List.cons.inj hes
      rw [List.map_cons, he, List.count_cons_self] at hcount
      omega

end HoleAbove

/-- What is open in front of a template **encloses** what is open while that is read: it is all
that is open while the template reads a literal part or returns, and in a hole it stands below the
hole, above which there are as many holes as calls above the one for that hole. -/
def Encloses (m a : Machine) : Prop :=
  (a.control ≠ .code ∧ a.calls = m.calls ∧ a.scan.levels = m.scan.levels) ∨
    ∃ cs call, a.calls = cs ++ call :: m.calls ∧ HoleAbove m.scan.levels cs.length a.scan.levels

namespace Encloses

variable {lines : LineMap} {m a b : Machine}

/-- **A step leaves enclosed what is enclosed**, unless the template has returned. -/
theorem step (h : Encloses m a) (hgoing : ¬ Returned m a) (heffect : Effect lines a b) :
    Encloses m b := by
  rcases h with ⟨hcode, hcalls, hlevels⟩ | ⟨cs, call, hcalls, hlevels⟩
  · have hreturned : a.control ≠ .returned := fun h => hgoing ⟨h, congrArg List.length hcalls⟩
    cases heffect with
    | within before => exact absurd before (by simp [hcode, hreturned])
    | template before | opening before | closing before | leaving before =>
        exact absurd before hcode
    | @hole u call' _ _ hcalls' hlevels' =>
        rw [hlevels] at hlevels'
        refine Or.inr ⟨[], call', ?_, [], _, hlevels', rfl, rfl, rfl⟩
        rw [hcalls', hcalls, List.nil_append]
    | returning _ hafter hcalls' hlevels' =>
        exact Or.inl ⟨by simp [hafter], hcalls'.trans hcalls, hlevels'.trans hlevels⟩
  · cases heffect with
    | within _ _ hcalls' hlevels' | template _ _ hcalls' hlevels' =>
        exact Or.inr ⟨cs, call, hcalls'.trans hcalls, hlevels.touch hlevels'⟩
    | returning _ _ hcalls' hlevels' =>
        exact Or.inr ⟨cs, call, hcalls'.trans hcalls, hlevels' ▸ hlevels⟩
    | opening _ _ hcalls' hkind hbelow hlevels' =>
        exact Or.inr ⟨cs, call, hcalls'.trans hcalls,
          hlevels' ▸ (hlevels.touch hbelow).push hkind.1⟩
    | @closing e _ _ _ hcalls' hkind hhole hlevels' hbelow =>
        have he : e.kind ≠ .hole := fun he => by simp [hhole he] at hcalls
        rw [hlevels'] at hlevels
        exact Or.inr ⟨cs, call, hcalls'.trans hcalls, (hlevels.pop he).touch hbelow⟩
    | @hole u call' _ _ hcalls' hlevels' =>
        exact Or.inr ⟨call' :: cs, call, by rw [hcalls', hcalls, List.cons_append],
          hlevels' ▸ hlevels.pushHole rfl⟩
    | leaving _ hleaves =>
        obtain ⟨hole, hlevels', hkind⟩ := hleaves.levels
        obtain ⟨call', hcalls', hcontrol⟩ := hleaves.calls
        rw [hlevels'] at hlevels
        rw [hcalls'] at hcalls
        cases cs with
        | nil =>
            have hcode : b.control ≠ .code := by simp [hcontrol]
            exact Or.inl ⟨hcode, (List.cons.inj hcalls).2, hlevels.eq_of_last hkind⟩
        | cons c cs => exact Or.inr ⟨cs, call, (List.cons.inj hcalls).2, hlevels.popHole hkind⟩

/-- While a literal part is read or after the return, all that is open was open in front of the
template. -/
theorem eq_of_length_eq (h : Encloses m a) (hlength : a.calls.length = m.calls.length) :
    a.scan.levels = m.scan.levels ∧ a.calls = m.calls := by
  rcases h with ⟨-, hcalls, hlevels⟩ | ⟨cs, call, hcalls, -⟩
  · exact ⟨hlevels, hcalls⟩
  · rw [hcalls, List.length_append, List.length_cons] at hlength
    omega

/-- What is open in front of the template is open below the rest. -/
theorem suffix (h : Encloses m a) : m.scan.levels <:+ a.scan.levels := by
  rcases h with ⟨-, -, hlevels⟩ | ⟨cs, call, -, above, hole, hlevels, -⟩
  · exact hlevels ▸ List.suffix_rfl
  · exact hlevels ▸ ⟨above ++ [hole], by simp⟩

end Encloses

/-- What is open in front of a template encloses all that the machine comes to while that is read.
-/
theorem encloses_of_during {lines : LineMap} {m a : Machine} {u : Unclosed}
    (hm : m.control = .literal u) (h : During lines m a) : Encloses m a := by
  induction h with
  | entered => exact Or.inl ⟨by simp [hm], rfl, rfl⟩
  | step _ hgoing hnext ih => exact ih.step hgoing (effect_of_next? hnext)

/-- A call for a hole returns in one way only. -/
theorem leaves_of_length_lt {lines : LineMap} {a b : Machine} (h : Steps lines a b)
    (hlength : b.calls.length < a.calls.length) : Leaves lines a b := by
  cases effect_of_next? h with
  | leaving _ hleaves => exact hleaves
  | within _ _ hcalls | template _ _ hcalls | opening _ _ hcalls | closing _ _ hcalls
  | returning _ _ hcalls => simp [hcalls] at hlength
  | hole _ _ hcalls =>
      rw [hcalls, List.length_cons] at hlength
      omega

/-- A call for a hole of a template returns to the levels that are open in front of the template:
the hole that it takes off is the one that was pushed for it. -/
theorem levels_eq_of_length_lt {lines : LineMap} {m a b : Machine} {u : Unclosed}
    (hm : m.control = .literal u) (ha : During lines m a) (h : Steps lines a b)
    (hlength : b.calls.length < a.calls.length) (hcalls : b.calls.length = m.calls.length) :
    b.scan.levels = m.scan.levels := by
  have hgoing : ¬ Returned m a := fun hreturned => by
    have := hreturned.2
    omega
  exact ((encloses_of_during hm (.step ha hgoing h)).eq_of_length_eq hcalls).1

/-- **Levels and calls are balanced around every template**, for the machine that finds the
templates of a source. Whatever it comes to, there are as many holes as calls for holes, and
nothing but the program as a whole is at the bottom. While a template is read, all levels that
were open in front of it stay below with their statements, and they are the levels that are open
when the reading returns; a call for a hole returns at a brace that takes off a hole, and this is
the one above those levels if the call is one of the template itself. -/
theorem balanced_around_templates (source : Text) :
    findTemplates source = Template.findTemplates source ∧
      ∀ m, Relation.ReflTransGen (Steps (LineMap.ofText source)) (start source) m →
        m.IsBalanced ∧
          ∀ u, m.control = .literal u → ∀ a, During (LineMap.ofText source) m a →
            (Encloses m a ∧ m.scan.levels <:+ a.scan.levels) ∧
              (Returned m a → a.scan.levels = m.scan.levels ∧ a.calls = m.calls) ∧
              ∀ b, Steps (LineMap.ofText source) a b → b.calls.length < a.calls.length →
                Leaves (LineMap.ofText source) a b ∧
                  (b.calls.length = m.calls.length → b.scan.levels = m.scan.levels) := by
  refine ⟨findTemplates_eq source, fun m hm => ⟨?_, fun u hu a ha => ?_⟩⟩
  · induction hm with
    | refl => exact .start source
    | tail _ hnext ih => exact ih.step (effect_of_next? hnext)
  · have hencloses := encloses_of_during hu ha
    exact ⟨⟨hencloses, hencloses.suffix⟩, fun hreturned => hencloses.eq_of_length_eq hreturned.2,
      fun b hb hlength =>
        ⟨leaves_of_length_lt hb hlength, levels_eq_of_length_lt hu ha hb hlength⟩⟩

/-- Closing brackets without counterparts, in a hole. -/
theorem balanced_around_templates_strayBrackets :
    let source : Text := ['(', '\x60', '$', '{', ')', ']', '}', '\x60']
    ∃ m a u, Relation.ReflTransGen (Steps (LineMap.ofText source)) (start source) m ∧
      m.control = .literal u ∧ During (LineMap.ofText source) m a ∧ Returned m a ∧
      m.IsBalanced ∧ m.scan.kinds = [.paren, .top] ∧
      a.scan.levels = m.scan.levels := by
  intro source
  let lines := LineMap.ofText source
  let opened := (start source).readLexeme lines '(' (source.drop 1)
  let m := opened.readLexeme lines '\x60' (source.drop 2)
  have hm : Relation.ReflTransGen (Steps lines) (start source) m :=
    (Relation.ReflTransGen.refl.tail (show Steps lines (start source) opened from rfl)).tail
      (show Steps lines opened m from rfl)
  obtain ⟨a, ha, hreturned⟩ : ∃ a, During lines m a ∧ Returned m a := by
    refine ⟨_, .step (.step (.step (.step (.step .entered ?_ rfl) ?_ rfl) ?_ rfl) ?_ rfl) ?_ rfl,
      ?_⟩
    all_goals decide
  obtain ⟨hbalanced, hduring⟩ := (balanced_around_templates source).2 m hm
  exact ⟨m, a, _, hm, rfl, ha, hreturned, hbalanced, rfl, ((hduring _ rfl a ha).2.1 hreturned).1⟩

end StyleBlocks.Machine
