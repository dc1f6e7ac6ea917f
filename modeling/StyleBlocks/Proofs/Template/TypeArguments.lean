import StyleBlocks.Proofs.Template.Balance
import StyleBlocks.Proofs.Template.Code

/-!
# Brackets in type arguments

Type arguments between a tag and its template are skipped whole. The skip counts angle brackets
and looks for the backtick behind them, and the brackets that it comes over are not read: the
levels are after it what they were in front of it. Read one by one, the brackets would leave them
as they are in one case only, if what they open they close. That is so of type arguments, whose
brackets are nested, but the skip takes a comparison in front of a template for type arguments
too, and then a bracket can be open behind it that no level stands for.

## Main definitions

* `Machine.readBrackets`: acts on the brackets among some lexemes, one after the other.
* `Machine.kindsOf`: the kinds of the lexemes of a text, each string and comment one of them.
* `Machine.Settles`: brackets leave no level that they open and take off none that they do not.

## Main results

* `Machine.kinds_readBrackets_iff`: exactly these brackets leave the levels as they are.
* `Machine.kinds_readBrackets_lexemes`: reading brackets does to the levels what the brackets do.
* `Machine.kinds_readCode_lessThan_iff`: when a skip leaves the levels that reading would leave.
-/

namespace StyleBlocks

open Template

/-! ### The skip -/

namespace Template

/-- A character that is no backtick can be put in front of type arguments. -/
theorem backtick_cons {o : Option Nat} {c : Char} {t : Text} {n : Nat}
    (ih : ∀ {m}, o = some m → (t.drop m).head? = some '\x60' ∧ '\x60' ∉ t.take m)
    (hc : c ≠ '\x60') (ho : o.map (· + 1) = some n) :
    ((c :: t).drop n).head? = some '\x60' ∧ '\x60' ∉ (c :: t).take n := by
  obtain ⟨m, hm, rfl⟩ := Option.map_eq_some_iff.1 ho
  obtain ⟨hhead, hnot⟩ := ih hm
  exact ⟨hhead, by simp [hnot, hc.symm]⟩

/-- Type arguments end in front of a backtick, from any place inside them on. -/
theorem backtick_of_typeArgumentsLength_go {depth i n : Nat} {previous : Char} {t : Text}
    (h : typeArgumentsLength.go depth previous i t = some n) :
    (t.drop n).head? = some '\x60' ∧ '\x60' ∉ t.take n := by
  fun_induction typeArgumentsLength.go depth previous i t generalizing n with
  | case1 | case2 | case5 | case7 => contradiction
  | case3 _ _ _ _ _ ih => exact backtick_cons ih (by decide) h
  | case4 _ i c t _ _ hc gap =>
      rename_i hgap
      cases h
      rw [Nat.add_comm]
      refine ⟨hgap, ?_⟩
      have htake : t.take gap = t.takeWhile isBlank :=
        (List.prefix_iff_eq_take.1 (List.takeWhile_prefix isBlank)).symm
      have hblank : '\x60' ∉ t.takeWhile isBlank := fun hmem =>
        absurd (List.mem_takeWhile_imp hmem) (by decide)
      simp [htake, hblank, hc.1]
  | case6 _ _ _ _ _ _ _ hc _ ih => exact backtick_cons ih (by simp [hc.1]) h
  | case8 _ _ _ _ _ _ _ _ hc ih => exact backtick_cons ih hc h

/-- Type arguments end in front of a backtick, and there is none in them. -/
theorem backtick_of_typeArgumentsLength {t : Text} {n : Nat} (h : typeArgumentsLength t = some n) :
    (t.drop n).head? = some '\x60' ∧ '\x60' ∉ t.take n :=
  backtick_of_typeArgumentsLength_go h

end Template

namespace Machine

/-! ### Brackets -/

/-- The kinds of brackets. -/
def isBracket : LexemeKind → Bool
  | .openParen | .closeParen | .openBracket | .closeBracket | .openBrace | .closeBrace => true
  | _ => false

/-- What a bracket does to the levels; any other lexeme does nothing. -/
def Scan.readBracket (s : Scan) (k : LexemeKind) : Scan :=
  match k with
  | .openParen => s.openLevel .paren true
  | .openBracket => s.openLevel .bracket true
  | .openBrace => s.openLevel .brace false
  | .closeParen | .closeBracket | .closeBrace => (s.closeLevel? k).elim s Prod.snd
  | _ => s

/-- What brackets do to the levels, one after the other. -/
def Scan.readBrackets (s : Scan) (ks : List LexemeKind) : Scan :=
  ks.foldl Scan.readBracket s

/-- Acts on a lexeme if it is a bracket. -/
def readBracket (lines : LineMap) (m : Machine) (l : Lexeme) : Machine :=
  match l.kind with
  | none => m
  | some k => if isBracket k then m.readCode lines k l.text m.offset else m

/-- Acts on the brackets among some lexemes, one after the other. -/
def readBrackets (lines : LineMap) (m : Machine) (ls : List Lexeme) : Machine :=
  ls.foldl (readBracket lines) m

/-- The kinds of the lexemes of a text. -/
def kindsOf (t : Text) : List LexemeKind :=
  (Lexeme.readAll t).filterMap Lexeme.kind

/-- Whether brackets close all that is due, innermost first, and all that they open, each by its
counterpart; other closing brackets are passed over while something is due, or not allowed. -/
def closes (passesOver : Bool) (due : List LexemeKind) : List LexemeKind → Bool
  | [] => due.isEmpty
  | k :: ks =>
    match k.closer? with
    | some closer => closes passesOver (closer :: due) ks
    | none =>
      if isBracket k then
        match due with
        | [] => false
        | closer :: below =>
          if k = closer then closes passesOver below ks
          else passesOver && closes passesOver due ks
      else closes passesOver due ks

/-- Brackets **settle** if they close all that they open and nothing else; a closing bracket that
is not due can stand between two others. -/
def Settles (ks : List LexemeKind) : Prop :=
  closes true [] ks

/-- Brackets are **nested** if they close all that they open and nothing else, each when it is
due. -/
def Nested (ks : List LexemeKind) : Prop :=
  closes false [] ks

instance (ks : List LexemeKind) : Decidable (Settles ks) :=
  inferInstanceAs (Decidable (_ = _))

instance (ks : List LexemeKind) : Decidable (Nested ks) :=
  inferInstanceAs (Decidable (_ = _))

/-- Brackets that close what is due in order do so too if others may be passed over. -/
theorem closes_true_of_closes_false {due ks : List LexemeKind} (h : closes false due ks) :
    closes true due ks := by
  induction ks generalizing due with
  | nil => exact h
  | cons k ks ih =>
      cases hopens : k.closer? with
      | some closer =>
          simp only [closes, hopens] at h ⊢
          exact ih h
      | none =>
          by_cases hk : isBracket k = true
          · cases due with
            | nil => simp [closes, hopens, hk] at h
            | cons closer below =>
                by_cases hne : k = closer
                · subst hne
                  simp only [closes, hopens, hk, if_true] at h ⊢
                  exact ih h
                · simp [closes, hopens, hk, hne] at h
          · simp only [closes, hopens, hk] at h ⊢
            exact ih h

/-- Nested brackets settle. -/
theorem Nested.settles {ks : List LexemeKind} (h : Nested ks) : Settles ks :=
  closes_true_of_closes_false h

/-! ### Levels after brackets -/

/-- What a closing bracket does to the kinds of the levels. -/
def Kind.close (k : LexemeKind) : List Kind → List Kind
  | [] => []
  | kind :: below =>
    if (kind = .ofCloser k ∨ (k = .closeBrace ∧ kind = .hole)) ∧ kind ≠ .top then below
    else kind :: below

/-- What a lexeme does to the kinds of the levels if it is a bracket. -/
def Kind.read (kinds : List Kind) (k : LexemeKind) : List Kind :=
  match k.closer? with
  | some closer => .ofCloser closer :: kinds
  | none => if isBracket k then close k kinds else kinds

/-- A lexeme that is no bracket does nothing to the kinds of the levels. -/
theorem Kind.read_of_not_isBracket {k : LexemeKind} (h : ¬ isBracket k) (kinds : List Kind) :
    read kinds k = kinds := by
  cases k <;> first | rfl | exact absurd rfl h

/-- A closing bracket does to the kinds of the levels what it does to the levels. -/
theorem kinds_closeLevel? (s : Scan) (k : LexemeKind) :
    ((s.closeLevel? k).elim s Prod.snd).kinds = Kind.close k s.kinds := by
  rw [Scan.closeLevel?]
  cases hl : s.levels with
  | nil => simp [Scan.kinds, hl, Kind.close]
  | cons e es =>
      simp only [Scan.kinds, hl, List.map_cons, Kind.close]
      split <;> simp [hl]

/-- Brackets do to the levels what they do to their kinds. -/
theorem kinds_readBracket (s : Scan) (k : LexemeKind) :
    (s.readBracket k).kinds = Kind.read s.kinds k := by
  cases k with
  | closeParen | closeBracket | closeBrace => exact kinds_closeLevel? s _
  | _ => rfl

/-- Brackets do to the kinds of the levels what they do to the levels, one after the other. -/
theorem kinds_readBrackets (s : Scan) (ks : List LexemeKind) :
    (s.readBrackets ks).kinds = ks.foldl Kind.read s.kinds := by
  induction ks generalizing s with
  | nil => rfl
  | cons k ks ih => exact (ih _).trans (by rw [kinds_readBracket, List.foldl_cons])

/-- The innermost level is closed by the closing bracket that is due. -/
theorem Kind.close_ofCloser (k : LexemeKind) (kinds : List Kind) :
    close k (.ofCloser k :: kinds) = kinds := by
  cases k <;> rfl

/-- It is closed by no other closing bracket. -/
theorem Kind.close_of_ne {k closer : LexemeKind} (hk : isBracket k) (hopens : k.closer? = none)
    (hcloser : isBracket closer) (hcloses : closer.closer? = none) (hne : k ≠ closer)
    (kinds : List Kind) : close k (.ofCloser closer :: kinds) = .ofCloser closer :: kinds := by
  cases k <;> cases closer <;> first | rfl | contradiction

/-- **Exactly the brackets that close what is due leave the levels as they are** below it. -/
theorem foldl_read_iff {due ks : List LexemeKind}
    (hdue : ∀ c ∈ due, isBracket c ∧ c.closer? = none) :
    (∀ base, ks.foldl Kind.read (due.map Kind.ofCloser ++ base) = base) ↔ closes true due ks := by
  induction ks generalizing due with
  | nil =>
      refine ⟨fun h => ?_, fun h base => ?_⟩
      · have := h []
        simpa [closes] using this
      · obtain rfl : due = [] := by simpa [closes] using h
        rfl
  | cons k ks ih =>
      simp only [List.foldl_cons, closes, Kind.read]
      cases hopens : k.closer? with
      | some closer =>
          have hcloser : isBracket closer ∧ closer.closer? = none := by
            cases k <;> cases hopens <;> decide
          exact ih (List.forall_mem_cons.2 ⟨hcloser, hdue⟩)
      | none =>
          by_cases hk : isBracket k = true
          · simp only [hk, if_true]
            cases due with
            | nil =>
                -- A level that the closing bracket fits is taken off, and nothing brings it back.
                refine iff_of_false (fun h => ?_) (by simp)
                have hnil := h []
                have hone := h [.ofCloser k]
                rw [List.map_nil, List.nil_append] at hnil hone
                rw [Kind.close_ofCloser] at hone
                exact absurd (hnil.symm.trans hone) (by simp)
            | cons closer below =>
                obtain ⟨hcloser, hbelow⟩ := List.forall_mem_cons.1 hdue
                by_cases hne : k = closer
                · subst hne
                  simpa [Kind.close_ofCloser] using ih hbelow
                · simpa [hne, Kind.close_of_ne hk hopens hcloser.1 hcloser.2 hne] using ih hdue
          · simpa [hk] using ih hdue

/-- Brackets leave the levels of every state as they are if and only if they settle. -/
theorem kinds_readBrackets_iff (ks : List LexemeKind) :
    (∀ s : Scan, (s.readBrackets ks).kinds = s.kinds) ↔ Settles ks := by
  rw [Settles, ← foldl_read_iff (by simp)]
  refine ⟨fun h base => ?_, fun h s => (kinds_readBrackets s ks).trans (h s.kinds)⟩
  have hkinds : Scan.kinds { levels := base.map fun kind => { kind := kind } } = base := by
    simp [Scan.kinds, Function.comp_def]
  have := h { levels := base.map fun kind => { kind := kind } }
  rwa [kinds_readBrackets, hkinds] at this

/-! ### Skips -/

section

variable {lines : LineMap} {text : Text} {start n : Nat} {m : Machine} {k : LexemeKind}

/-- A change to the statement leaves the kinds of the levels as they are. -/
@[simp] theorem kinds_modifyStatement (f : Statement → Statement) (s : Scan) :
    (s.modifyStatement f).kinds = s.kinds :=
  (Touch.modifyStatement f s).map_kind

/-- Taking note of a lexeme leaves the kinds of the levels as they are. -/
@[simp] theorem kinds_settle (k : LexemeKind) (text : Text) (s : Scan) :
    (s.settle k text).kinds = s.kinds :=
  (Touch.settle k text s).map_kind

/-- **Reading a bracket** does to the kinds of the levels what the bracket does. -/
theorem kinds_readCode_of_isBracket (hk : isBracket k) :
    (m.readCode lines k text start).scan.kinds = (m.scan.readBracket k).kinds := by
  rw [kinds_readBracket, ← kinds_modifyStatement (Statement.meet k) m.scan, ← kinds_readBracket]
  have hclosing : ∀ s : Scan, ((s.closeLevel? k).elim s Prod.snd).kinds =
      (({ m with scan := s } : Machine).readClosing lines k text start).scan.kinds := by
    intro s
    rw [readClosing]
    cases s.closeLevel? k with
    | none => simp
    | some closed =>
        obtain ⟨e, left⟩ := closed
        simp only [Option.elim_some]
        split
        · split <;> simp
        · exact (kinds_settle k text (left.leave e)).symm
  cases k with
  | openParen | openBracket | openBrace => exact kinds_settle _ _ _
  | closeParen | closeBracket | closeBrace => exact (hclosing _).symm
  | _ => contradiction

variable (lines m) in
/-- A lexeme of some kind does to the kinds of the levels what this kind does. -/
theorem kinds_readBracket_lexeme {l : Lexeme} (hkind : l.kind = some k) :
    (m.readBracket lines l).scan.kinds = Kind.read m.scan.kinds k := by
  simp only [readBracket, hkind]
  by_cases hk : isBracket k = true
  · rw [if_pos hk, kinds_readCode_of_isBracket hk, kinds_readBracket]
  · rw [if_neg hk, Kind.read_of_not_isBracket hk]

variable (lines m) in
/-- **Reading brackets** one after the other does to the kinds of the levels what the brackets
do. -/
theorem kinds_readBrackets_lexemes (ls : List Lexeme) :
    (m.readBrackets lines ls).scan.kinds =
      (m.scan.readBrackets (ls.filterMap Lexeme.kind)).kinds := by
  rw [kinds_readBrackets]
  induction ls generalizing m with
  | nil => rfl
  | cons l ls ih =>
      refine (ih _).trans ?_
      cases hkind : l.kind with
      | none => rw [List.filterMap_cons_none hkind, readBracket, hkind]
      | some k =>
          rw [List.filterMap_cons_some hkind, List.foldl_cons,
            ← kinds_readBracket_lexeme lines m hkind]

variable (lines text start) in
/-- A less-than sign between a tag and its template skips the type arguments. -/
theorem readCode_lessThan (hchain : m.scan.chain.isSome)
    (hlength : typeArgumentsLength m.rest = some n) :
    (m.readCode lines .lessThan text start).rest = m.rest.drop n ∧
      (m.readCode lines .lessThan text start).scan.kinds = m.scan.kinds := by
  have hmeet : (m.scan.modifyStatement (Statement.meet .lessThan)).chain = m.scan.chain := by
    rw [Scan.modifyStatement]
    split <;> rfl
  obtain ⟨c, hc⟩ := Option.isSome_iff_exists.1 hchain
  simp only [readCode, hmeet, hc, hlength]
  exact ⟨rfl, by simp [skip]⟩

end

/-- **When type arguments can be skipped**: the skip leaves the levels that reading their brackets
one by one would leave, from every state that has a tag, if and only if the brackets settle. To read
them is to act on each as the machine does, and nested brackets settle. -/
theorem kinds_readCode_lessThan_iff {t : Text} {n : Nat} (h : typeArgumentsLength t = some n)
    (lines : LineMap) (text : Text) (start : Nat) :
    ((t.drop n).head? = some '\x60' ∧ '\x60' ∉ t.take n) ∧
      (∀ m : Machine, (m.readBrackets lines (Lexeme.readAll (t.take n))).scan.kinds =
        (m.scan.readBrackets (kindsOf (t.take n))).kinds) ∧
      ((∀ m : Machine, m.scan.chain.isSome → m.rest = t →
          (m.readCode lines .lessThan text start).rest = t.drop n ∧
            (m.readCode lines .lessThan text start).scan.kinds =
              (m.scan.readBrackets (kindsOf (t.take n))).kinds) ↔
        Settles (kindsOf (t.take n))) ∧
      (Nested (kindsOf (t.take n)) → Settles (kindsOf (t.take n))) := by
  refine ⟨backtick_of_typeArgumentsLength h, fun m => kinds_readBrackets_lexemes lines m _, ?_,
    Nested.settles⟩
  rw [← kinds_readBrackets_iff]
  refine ⟨fun hall s => ?_, fun hall m hchain hrest => ?_⟩
  · -- The chain says nothing of the levels.
    let m : Machine := { scan := { s with chain := some ⟨.other, 0⟩ }, rest := t }
    obtain ⟨-, hskip⟩ := readCode_lessThan lines text start (m := m) rfl h
    have hkinds := (hall m rfl rfl).2
    rw [hskip, kinds_readBrackets] at hkinds
    rw [kinds_readBrackets]
    exact hkinds.symm
  · subst hrest
    obtain ⟨hrest, hskip⟩ := readCode_lessThan lines text start hchain h
    exact ⟨hrest, hskip.trans (hall m.scan).symm⟩

/-- A comparison in front of a template, whose brace is skipped. No level stands for the brace, so
the counterpart of it closes the hole around the comparison, and the template gets a tag that is
none. -/
theorem kinds_readCode_lessThan_iff_comparison :
    let t : Text := "function()\x7breturn b>`x`\x7d\x7d`;".toList
    let source : Text := "css`$\x7ba<".toList ++ t
    typeArgumentsLength t = some 20 ∧
      (¬ ∀ m : Machine, m.scan.chain.isSome → m.rest = t →
        (m.readCode (.ofText t) .lessThan ['<'] 0).rest = t.drop 20 ∧
          (m.readCode (.ofText t) .lessThan ['<'] 0).scan.kinds =
            (m.scan.readBrackets (kindsOf (t.take 20))).kinds) ∧
      (readToEnd (.ofText source) {} 0 source).toOption.map
          (fun r => r.closed.map fun u => (u.tag, u.span, u.holes.map Hole.span)) =
        some [(.identifier ['a'], ⟨6, 31⟩, []),
          (.identifier "css".toList, ⟨0, 34⟩, [⟨6, 31⟩])] := by
  intro t source
  have hlength : typeArgumentsLength t = some 20 := by decide +kernel
  have hsettles : ¬ Settles (kindsOf (t.take 20)) := by decide +kernel
  refine ⟨hlength, fun hall => hsettles ?_, by decide +kernel⟩
  exact (kinds_readCode_lessThan_iff hlength (.ofText t) ['<'] 0).2.2.1.1 hall

end Machine

end StyleBlocks
