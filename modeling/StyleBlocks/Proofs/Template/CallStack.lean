import StyleBlocks.Proofs.Template.Steps

/-!
# Reading with a stack of calls

Reading is a recursion: the loop over the lexemes calls the reading of a template, and that calls
the loop again for each hole. All these calls share one stack of levels, in which a hole is a
level like any other: nothing in it says which template the hole belongs to, and the calls that
are active say nothing of the levels. The machine of this module keeps both, the levels as the
calls share them and the calls on a stack of their own.

The machine finds the templates that `findTemplates` finds, whose levels of holes hold their
templates instead.

## Main definitions

* `Machine`: the shared state, the active calls, and what the innermost of them is to do next.
* `Machine.next?`: one step of the machine.
* `Machine.findTemplates`: the tagged templates of host code.

## Main results

* `Machine.run_ofReading`: the machine reads what is read without it.
* `Machine.findTemplates_eq`: the machine finds the templates that are found without it.
-/

namespace StyleBlocks

open Template

namespace Machine

/-! ### The shared state -/

/-- The kinds of levels. -/
inductive Kind where
  /-- The program as a whole. -/
  | top
  /-- An open parenthesis. -/
  | paren
  /-- An open square bracket. -/
  | bracket
  /-- An open brace. -/
  | brace
  /-- A hole. -/
  | hole
deriving DecidableEq, Repr

/-- The kind of the levels that a closing bracket is the counterpart of. -/
def Kind.ofCloser : LexemeKind → Kind
  | .closeParen => .paren
  | .closeBracket => .bracket
  | _ => .brace

/-- An entry of the stack of levels. -/
structure Entry where
  /-- Its kind. -/
  kind : Kind
  /-- The chain in front of the bracket that opened it. -/
  saved : Option Chain := none
  /-- Its current statement. -/
  statement : Statement := {}
deriving DecidableEq, Repr

/-- The state that all calls share. -/
structure Scan where
  /-- The levels, innermost first. -/
  levels : List Entry := [{ kind := .top }]
  /-- The chain that ends at this place. -/
  chain : Option Chain := none
  /-- Whether a dot follows the chain. -/
  afterDot : Bool := false
  /-- Whether a slash at this place starts a regular expression. -/
  regexAllowed : Bool := true
  /-- The templates closed so far. -/
  closed : List Tagged := []
deriving DecidableEq, Repr

namespace Scan

/-- The kinds of the levels, innermost first. -/
def kinds (s : Scan) : List Kind :=
  s.levels.map Entry.kind

/-- The kind of the innermost level is the first. -/
theorem kinds_of_levels {s : Scan} {e : Entry} {es : List Entry} (h : s.levels = e :: es) :
    s.kinds = e.kind :: es.map Entry.kind := by
  rw [kinds, h, List.map_cons]

/-- Applies a function to the statement of the innermost level. -/
def modifyStatement (f : Statement → Statement) (s : Scan) : Scan :=
  match s.levels with
  | [] => s
  | e :: es => { s with levels := { e with statement := f e.statement } :: es }

/-- Forgets the chain. -/
def dropChain (s : Scan) : Scan :=
  { s with chain := none, afterDot := false }

/-- Opens a level; brackets keep the chain in front of them, braces do not. -/
def openLevel (kind : Kind) (keepsChain : Bool) (s : Scan) : Scan :=
  { s.dropChain with
    levels := { kind := kind, saved := if keepsChain then s.chain else none } :: s.levels }

/-- Takes note of a line break, which can end a statement at the top and between braces. -/
def breakLine (s : Scan) : Scan :=
  match s.levels with
  | [] => s
  | e :: _ =>
    if e.kind = .top ∨ e.kind = .brace then s.modifyStatement Statement.breakLine else s

/-- Reads a name at the given offset. -/
def identifier (name : Text) (offset : Nat) (s : Scan) : Scan :=
  let chain := match s.chain, s.afterDot with
    | some c, true => c.mapTag (.member · name)
    | _, _ => ⟨.identifier name, offset⟩
  { s with chain := some chain, afterDot := false }

/-- Reads a private name. -/
def privateName (name : Text) (s : Scan) : Scan :=
  let chain := match s.chain, s.afterDot with
    | some c, true => some (c.mapTag (.member · name))
    | _, _ => none
  { s with chain := chain, afterDot := false }

/-- Takes the innermost level off the stack if a closing bracket closes it: a bracket closes
levels of its own kind, and a brace closes holes too. -/
def closeLevel? (k : LexemeKind) (s : Scan) : Option (Entry × Scan) :=
  match s.levels with
  | [] => none
  | e :: es =>
    if (e.kind = .ofCloser k ∨ (k = .closeBrace ∧ e.kind = .hole)) ∧ e.kind ≠ .top then
      some (e, { s with levels := es })
    else none

/-- The chain behind a level that has been closed and was no hole. -/
def leave (e : Entry) (s : Scan) : Scan :=
  let chain := match e.kind with
    | .paren => e.saved.map (Chain.mapTag .call)
    | .bracket => e.saved.map (Chain.mapTag .computed)
    | _ => none
  { s with chain := chain, afterDot := false }

/-- Takes note of a lexeme after it has been acted on. -/
def settle (k : LexemeKind) (text : Text) (s : Scan) : Scan :=
  let regexAllowed := match k with
    | .identifier => Nesting.regexWords.contains text
    | .semicolon | .comma => true
    | k => !k.endsExpression
  let s := { s with regexAllowed := regexAllowed }
  match k with
  | .semicolon | .comma => s
  | k => s.modifyStatement fun t => { t with endsExpression := k.endsExpression }

/-- The comments that lead the open statements, those of outer levels first. -/
def leadingComments (s : Scan) : List Text :=
  s.levels.reverse.flatMap fun e => e.statement.leading

/-- Keeps a template that ends at the offset `stop`, if it has a tag. -/
def keep (u : Unclosed) (stop : Nat) (s : Scan) : Scan :=
  { s.dropChain with closed := s.closed ++ (u.close? stop).toList }

/-- Opens a hole. -/
def openHole (s : Scan) : Scan :=
  { s.openLevel .hole false with regexAllowed := true }

end Scan

/-! ### Calls -/

/-- A **call** of the loop for a hole, with the call of the reading of a template that waits for
it. -/
structure Call where
  /-- The template. -/
  template : Unclosed
  /-- The offset at which the expression of the hole starts. -/
  start : Nat
deriving DecidableEq, Repr

/-- What is to be done next. -/
inductive Control where
  /-- The loop is to read a lexeme. -/
  | code
  /-- The reading of a template is to read a literal part. -/
  | literal (u : Unclosed)
  /-- The reading of a template has returned to the loop that called it. -/
  | returned
deriving DecidableEq, Repr

end Machine

open Machine in
/-- The **machine**: how far reading has come. -/
structure Machine where
  /-- The state that all calls share. -/
  scan : Scan := {}
  /-- The calls for holes that are active, innermost first. -/
  calls : List Call := []
  /-- What is to be done next. -/
  control : Control := .code
  /-- The offset of this place. -/
  offset : Nat := 0
  /-- The code that is left. -/
  rest : Text
deriving DecidableEq, Repr

namespace Machine

/-- Drops `n` characters of the code that is left. -/
def skip (n : Nat) (m : Machine) : Machine :=
  { m with offset := m.offset + Text.byteSize (m.rest.take n), rest := m.rest.drop n }

/-- Reads a literal part of a template. At a backtick the template returns, at a hole it calls the
loop. -/
def readLiteral (lines : LineMap) (u : Unclosed) (m : Machine) : Except ScanError Machine :=
  match RawText.readSegment m.rest with
  | none => .error (.unterminated u.opening (lines.position u.opening))
  | some g =>
    let u := u.addQuasi (.ofRaw lines m.offset g.raw)
    let stop := m.offset + Text.byteSize g.raw
    match g.delimiter with
    | .backtick =>
      .ok { m with scan := m.scan.keep u (stop + 1), control := .returned, offset := stop + 1,
                   rest := g.rest }
    | .hole =>
      .ok { scan := m.scan.openHole, calls := ⟨u, stop + 2⟩ :: m.calls, control := .code,
            offset := stop + 2, rest := g.rest }

/-- Acts on a closing bracket at the offset `start`, before the place of the machine. If it closes a
hole, the call for the hole returns to its template; outside holes there is no call that could. -/
def readClosing (lines : LineMap) (k : LexemeKind) (text : Text) (start : Nat) (m : Machine) :
    Machine :=
  match m.scan.closeLevel? k with
  | none => { m with scan := m.scan.settle k text }
  | some (e, left) =>
    if e.kind = .hole then
      match m.calls with
      | [] => { m with scan := left.settle k text }
      | call :: calls =>
        { m with
          scan := left
          calls := calls
          control := .literal
            (call.template.addHole ⟨⟨call.start, start⟩, lines.position call.start⟩) }
    else { m with scan := (left.leave e).settle k text }

/-- Acts on a lexeme that is not trivia, at the offset `start` and before the place of the
machine. -/
def readCode (lines : LineMap) (k : LexemeKind) (text : Text) (start : Nat) (m : Machine) :
    Machine :=
  let s := m.scan.modifyStatement (Statement.meet k)
  let settled (s : Scan) : Machine := { m with scan := s.settle k text }
  match k with
  | .identifier => settled (s.identifier text start)
  | .privateName => settled (s.privateName text)
  | .dot | .optionalChain => settled { s with afterDot := s.chain.isSome }
  | .openParen => settled (s.openLevel .paren true)
  | .openBracket => settled (s.openLevel .bracket true)
  | .openBrace => settled (s.openLevel .brace false)
  | .closeParen | .closeBracket | .closeBrace => readClosing lines k text start { m with scan := s }
  | .backtick =>
    { m with
      scan := s.dropChain
      control := .literal
        { chain := s.chain, opening := start, leadingComments := s.leadingComments } }
  | .slash =>
    let after := text.drop 1 ++ m.rest
    let more := if s.regexAllowed then (regexLength after).getD 0 - (text.length - 1) else 0
    (settled s.dropChain).skip more
  | .lessThan =>
    match s.chain, typeArgumentsLength m.rest with
    | some _, some more => (settled s).skip more
    | _, _ => settled s.dropChain
  | .semicolon | .comma => settled (s.dropChain.modifyStatement Statement.finish)
  | _ => settled s.dropChain

/-- Reads the lexeme that the character `c` begins in front of the text `t`. -/
def readLexeme (lines : LineMap) (c : Char) (t : Text) (m : Machine) : Machine :=
  let lexeme := Lexeme.read c t
  let next : Machine :=
    { m with offset := m.offset + Text.byteSize lexeme.text, rest := Lexeme.rest c t }
  match lexeme.kind with
  | none => { next with scan := m.scan.dropChain }
  | some .blanks | some .blockComment => next
  | some .lineBreak => { next with scan := m.scan.breakLine }
  | some .lineComment =>
    { next with scan := m.scan.modifyStatement (Statement.comment (lexeme.text.drop 2)) }
  | some k => readCode lines k lexeme.text m.offset next

/-- **A step**: what the machine does next, nothing if the loop outside all holes has come to the
end of the code. If a loop in a hole does, its template does not close. -/
def next? (lines : LineMap) (m : Machine) : Except ScanError (Option Machine) :=
  match m.control with
  | .returned => .ok (some { m with scan := m.scan.settle .backtick [], control := .code })
  | .literal u => (m.readLiteral lines u).map some
  | .code =>
    match m.rest with
    | c :: t => .ok (some (m.readLexeme lines c t))
    | [] =>
      match m.calls with
      | [] => .ok none
      | call :: _ =>
        .error (.unterminated call.template.opening (lines.position call.template.opening))

/-! ### Runs -/

/-- What decreases with each step. -/
def size (m : Machine) : Nat :=
  2 * m.rest.length + if m.control = .returned then 1 else 0

/-- A lexeme leaves no more code than is behind it. -/
theorem length_rest_readCode_le (lines : LineMap) (k : LexemeKind) (text : Text) (start : Nat)
    (m : Machine) : (m.readCode lines k text start).rest.length ≤ m.rest.length := by
  simp only [readCode]
  split
  case h_13 => split <;> simp [skip]
  case h_8 | h_9 | h_10 =>
    simp only [readClosing]
    split
    · simp
    · split
      · split <;> simp
      · simp
  all_goals simp [skip]

/-- A lexeme leaves less code to read. -/
theorem length_rest_readLexeme_lt (lines : LineMap) (c : Char) (t : Text) (m : Machine) :
    (m.readLexeme lines c t).rest.length < (c :: t).length := by
  have hrest := Lexeme.length_rest_le c t
  simp only [readLexeme]
  split
  case h_6 k _ _ _ _ _ =>
    have := length_rest_readCode_le lines k (Lexeme.read c t).text m.offset
      { m with offset := m.offset + Text.byteSize (Lexeme.read c t).text, rest := Lexeme.rest c t }
    simp only [List.length_cons] at this ⊢
    omega
  all_goals
    simp only [List.length_cons]
    omega

/-- A literal part leaves less code to read. -/
theorem length_rest_readLiteral_lt {lines : LineMap} {u : Unclosed} {m m' : Machine}
    (h : m.readLiteral lines u = .ok m') : m'.rest.length < m.rest.length := by
  simp only [readLiteral] at h
  split at h
  · contradiction
  · next g hg =>
      have := RawText.length_rest_lt_of_readSegment hg
      split at h <;> (cases h; exact this)

/-- Every step leaves less to do. -/
theorem size_lt_of_next? {lines : LineMap} {m m' : Machine} (h : m.next? lines = .ok (some m')) :
    m'.size < m.size := by
  have hlt : m'.rest.length < m.rest.length → m'.size < m.size := by
    intro hrest
    simp only [size]
    split <;> split <;> omega
  simp only [next?] at h
  split at h
  · next hcontrol =>
      cases h
      simp [size, hcontrol]
  · next u hcontrol =>
      cases hr : m.readLiteral lines u with
      | error e => simp [hr, Except.map] at h
      | ok r =>
          simp only [hr, Except.map, Except.ok.injEq, Option.some.injEq] at h
          exact hlt (h ▸ length_rest_readLiteral_lt hr)
  · split at h
    · next c t hrest =>
        simp only [Except.ok.injEq, Option.some.injEq] at h
        exact hlt (by rw [← h, hrest]; exact length_rest_readLexeme_lt lines c t m)
    · split at h <;> simp at h

/-- Runs the machine to the end of the code. -/
def run (lines : LineMap) (m : Machine) : Except ScanError Scan :=
  match h : m.next? lines with
  | .error e => .error e
  | .ok none => .ok m.scan
  | .ok (some m') =>
    have := size_lt_of_next? h
    m'.run lines
termination_by m.size

/-- Running the machine is taking one step and running it from there. -/
theorem run_of_next? {lines : LineMap} {m m' : Machine} (h : m.next? lines = .ok (some m')) :
    m.run lines = m'.run lines := by
  rw [run]
  split <;> simp_all

/-- A machine that has nothing to do has run. -/
theorem run_of_next?_none {lines : LineMap} {m : Machine} (h : m.next? lines = .ok none) :
    m.run lines = .ok m.scan := by
  rw [run]
  split <;> simp_all

/-- A machine that fails at a step fails. -/
theorem run_of_next?_error {lines : LineMap} {m : Machine} {e : ScanError}
    (h : m.next? lines = .error e) : m.run lines = .error e := by
  rw [run]
  split <;> simp_all

/-- The machine at the start of a source. -/
def start (source : Text) : Machine where
  rest := source

/-- The tagged templates of host code, by the start of their tags. -/
def findTemplates (source : Text) : Except ScanError (List Tagged) := do
  let s ← (start source).run (LineMap.ofText source)
  return s.closed.mergeSort fun a b => a.span.start ≤ b.span.start

/-! ### Nestings on the stacks -/

/-- The entry of a level. -/
def Entry.ofLevel (l : Level) : Entry :=
  match l.opener with
  | .paren c => ⟨.paren, c, l.statement⟩
  | .bracket c => ⟨.bracket, c, l.statement⟩
  | .brace => ⟨.brace, none, l.statement⟩
  | .hole _ _ => ⟨.hole, none, l.statement⟩

/-- The call that reads the hole of a level, if that is a hole. -/
def Call.ofLevel? (l : Level) : Option Call :=
  match l.opener with
  | .hole u start => some ⟨u, start⟩
  | _ => none

/-- The shared state for a nesting. -/
def Scan.ofNesting (n : Nesting) : Scan where
  levels := n.levels.map Entry.ofLevel ++ [{ kind := .top, statement := n.base }]
  chain := n.chain
  afterDot := n.afterDot
  regexAllowed := n.regexAllowed
  closed := n.closed

/-- The calls that read the holes of a nesting. -/
def callsOf (n : Nesting) : List Call :=
  n.levels.filterMap Call.ofLevel?

/-- The machine at a place that reading has come to. -/
def ofReading (r : Reading) : Machine where
  scan := .ofNesting r.nesting
  calls := callsOf r.nesting
  offset := r.offset
  rest := r.rest

namespace Scan

variable (n : Nesting)

/-- A change to the statement is one to that of the nesting. -/
@[simp] theorem modifyStatement_ofNesting (f : Statement → Statement) :
    (ofNesting n).modifyStatement f = ofNesting (n.modifyStatement f) := by
  cases hl : n.levels with
  | nil => simp [ofNesting, modifyStatement, Nesting.modifyStatement, hl]
  | cons l ls =>
      obtain ⟨opener, statement⟩ := l
      cases opener <;>
        simp [ofNesting, modifyStatement, Nesting.modifyStatement, hl, Entry.ofLevel]

/-- A change to the statement calls and returns nothing. -/
@[simp] theorem callsOf_modifyStatement (f : Statement → Statement) :
    callsOf (n.modifyStatement f) = callsOf n := by
  cases hl : n.levels with
  | nil => simp [callsOf, Nesting.modifyStatement, hl]
  | cons l ls => simp [callsOf, Nesting.modifyStatement, hl, List.filterMap_cons, Call.ofLevel?]

/-- A line break is taken note of as in the nesting. -/
@[simp] theorem breakLine_ofNesting : (ofNesting n).breakLine = ofNesting n.breakLine := by
  cases hl : n.levels with
  | nil =>
      rw [Nesting.breakLine, if_pos (by simp [Nesting.breaksEndStatements, hl]),
        ← modifyStatement_ofNesting]
      simp [breakLine, ofNesting, hl]
  | cons l ls =>
      obtain ⟨opener, statement⟩ := l
      cases opener <;>
        simp [breakLine, ofNesting, hl, Nesting.breakLine, Nesting.breaksEndStatements,
          Entry.ofLevel, modifyStatement, Nesting.modifyStatement]

/-- A lexeme is taken note of as in the nesting. -/
@[simp] theorem settle_ofNesting (k : LexemeKind) (text : Text) :
    (ofNesting n).settle k text = ofNesting (n.settle k text) := by
  unfold settle Nesting.settle
  extract_lets allowed s allowed' m
  cases k with
  | semicolon | comma => rfl
  | _ => exact modifyStatement_ofNesting m _

/-- Taking note of a lexeme calls and returns nothing. -/
@[simp] theorem callsOf_settle (k : LexemeKind) (text : Text) :
    callsOf (n.settle k text) = callsOf n := by
  unfold Nesting.settle
  extract_lets allowed m
  have hm : callsOf m = callsOf n := rfl
  split
  · exact hm
  · exact hm
  · rw [callsOf_modifyStatement, hm]

/-- The entry of a level has the statement of that. -/
@[simp] theorem statement_ofLevel (l : Level) : (Entry.ofLevel l).statement = l.statement := by
  rw [Entry.ofLevel]
  split <;> rfl

/-- The leading comments are those of the nesting. -/
@[simp] theorem leadingComments_ofNesting :
    (ofNesting n).leadingComments = n.leadingComments := by
  simp [leadingComments, Nesting.leadingComments, ofNesting, ← List.map_reverse, List.flatMap_map]

/-- A closing bracket closes a level with a bracket of its kind, and leaves what is open without
one. -/
theorem closeLevel?_ofNesting {k : LexemeKind}
    (hk : k = .closeParen ∨ k = .closeBracket ∨ k = .closeBrace)
    (hhole : ∀ u s st ls, n.levels = ⟨.hole u s, st⟩ :: ls → k ≠ .closeBrace) :
    ((ofNesting n).closeLevel? k = none ∧ n.closeLevel k = n) ∨
      ∃ e left, (ofNesting n).closeLevel? k = some (e, left) ∧ e.kind ≠ .hole ∧
        left.leave e = ofNesting (n.closeLevel k) ∧ callsOf (n.closeLevel k) = callsOf n := by
  cases hl : n.levels with
  | nil => exact Or.inl (by simp [closeLevel?, ofNesting, Nesting.closeLevel, hl])
  | cons l ls =>
      obtain ⟨opener, st⟩ := l
      cases opener with
      | paren c | bracket c | brace =>
          rcases hk with rfl | rfl | rfl <;>
            simp [closeLevel?, Kind.ofCloser, ofNesting, Nesting.closeLevel, hl, Entry.ofLevel,
              leave, callsOf, List.filterMap_cons, Call.ofLevel?]
      | hole u s =>
          have := hhole u s st ls hl
          rcases hk with rfl | rfl | rfl <;>
            simp_all [closeLevel?, Kind.ofCloser, ofNesting, Nesting.closeLevel, Entry.ofLevel]

/-- A closing brace closes a hole. -/
theorem closeLevel?_ofNesting_hole {u : Unclosed} {start : Nat} {st : Statement} {ls : List Level}
    (hl : n.levels = ⟨.hole u start, st⟩ :: ls) :
    (ofNesting n).closeLevel? .closeBrace =
      some (⟨.hole, none, st⟩, ofNesting { n with levels := ls }) := by
  simp [closeLevel?, ofNesting, hl, Entry.ofLevel]

end Scan

section

variable (lines : LineMap)

/-- A literal part of a template is read as without the machine. -/
theorem run_literal (u : Unclosed) (n : Nesting) (o : Nat) (t : Text) :
    run lines ⟨.ofNesting n, callsOf n, .literal u, o, t⟩ =
      (Template.readLiteral lines u ⟨n, o, t⟩).bind fun r => run lines (ofReading r) := by
  cases hg : RawText.readSegment t with
  | none =>
      have hliteral : next? lines ⟨.ofNesting n, callsOf n, .literal u, o, t⟩ =
          .error (.unterminated u.opening (lines.position u.opening)) := by
        simp only [next?, readLiteral, hg, Except.map]
      rw [run_of_next?_error hliteral]
      simp only [Template.readLiteral, hg, Except.bind]
  | some g =>
      obtain ⟨raw, delimiter, rest⟩ := g
      cases delimiter with
      | backtick =>
          let v := u.addQuasi (.ofRaw lines o raw)
          let stop := o + Text.byteSize raw + 1
          have hliteral : next? lines ⟨.ofNesting n, callsOf n, .literal u, o, t⟩ =
              .ok (some ⟨(Scan.ofNesting n).keep v stop, callsOf n, .returned, stop, rest⟩) := by
            simp only [next?, readLiteral, hg, Except.map]
            rfl
          have hreturned : next? lines
              ⟨(Scan.ofNesting n).keep v stop, callsOf n, .returned, stop, rest⟩ =
              .ok (some (ofReading ⟨n.closeTemplate v stop, stop, rest⟩)) := by
            have hkeep : (Scan.ofNesting n).keep v stop = .ofNesting
                { n.dropChain with closed := n.closed ++ (v.close? stop).toList } := rfl
            simp only [next?, hkeep, Scan.settle_ofNesting, ofReading, Nesting.closeTemplate,
              Scan.callsOf_settle]
            rfl
          rw [run_of_next? hliteral, run_of_next? hreturned]
          simp only [Template.readLiteral, hg, Except.bind]
          rfl
      | hole =>
          let v := u.addQuasi (.ofRaw lines o raw)
          let stop := o + Text.byteSize raw + 2
          have hliteral : next? lines ⟨.ofNesting n, callsOf n, .literal u, o, t⟩ =
              .ok (some (ofReading ⟨n.openHole v stop, stop, rest⟩)) := by
            simp only [next?, readLiteral, hg, Except.map]
            rfl
          rw [run_of_next? hliteral]
          simp only [Template.readLiteral, hg, Except.bind]
          rfl

/-- A lexeme that is not trivia is read as without the machine. -/
theorem run_readCode (k : LexemeKind) (text : Text) (start : Nat) (r : Reading) :
    run lines ((ofReading r).readCode lines k text start) =
      (Template.readCode lines k text start r).bind fun r => run lines (ofReading r) := by
  have hmeet : (ofReading r).scan.modifyStatement (Statement.meet k) =
      .ofNesting (r.nesting.modifyStatement (Statement.meet k)) :=
    Scan.modifyStatement_ofNesting _ _
  have hcalls : (ofReading r).calls = callsOf (r.nesting.modifyStatement (Statement.meet k)) :=
    (Scan.callsOf_modifyStatement _ _).symm
  simp only [readCode, Template.readCode, hmeet, hcalls]
  generalize r.nesting.modifyStatement (Statement.meet k) = m
  have settled : ∀ (n : Nesting) (r : Reading) (calls : List Call), calls = callsOf n →
      run lines ⟨(Scan.ofNesting n).settle k text, calls, .code, r.offset, r.rest⟩ =
        (Except.ok { r with nesting := n.settle k text } : Except ScanError Reading).bind
          fun r => run lines (ofReading r) := by
    rintro n r _ rfl
    simp [ofReading, Except.bind]
  -- A closing bracket that closes no hole.
  have closes : (k = .closeParen ∨ k = .closeBracket ∨ k = .closeBrace) →
      (∀ u s st ls, m.levels = ⟨.hole u s, st⟩ :: ls → k ≠ .closeBrace) →
      run lines
          (readClosing lines k text start ⟨.ofNesting m, callsOf m, .code, r.offset, r.rest⟩) =
        (Except.ok { r with nesting := (m.closeLevel k).settle k text } :
          Except ScanError Reading).bind fun r => run lines (ofReading r) := by
    intro hk hhole
    rw [readClosing]
    rcases Scan.closeLevel?_ofNesting m hk hhole with
      ⟨hnone, hsame⟩ | ⟨e, left, hsome, hne, hleave, hcalls⟩
    · simp only [hnone, hsame]
      exact settled m r _ rfl
    · simp only [hsome, if_neg hne, hleave]
      exact settled (m.closeLevel k) r _ hcalls.symm
  cases k with
  | identifier => exact settled (m.identifier text start) r _ rfl
  | privateName => exact settled (m.privateName text) r _ rfl
  | dot | optionalChain => exact settled { m with afterDot := m.chain.isSome } r _ rfl
  | openParen => exact settled (m.openLevel (.paren m.chain)) r _ rfl
  | openBracket => exact settled (m.openLevel (.bracket m.chain)) r _ rfl
  | openBrace => exact settled (m.openLevel .brace) r _ rfl
  | closeParen | closeBracket => exact closes (by simp) (by simp)
  | closeBrace =>
      cases hl : m.levels with
      | nil => exact closes (by simp) (by simp [hl])
      | cons l ls =>
          obtain ⟨opener, st⟩ := l
          cases opener with
          | hole u s =>
              have hcalls : callsOf m = ⟨u, s⟩ :: callsOf { m with levels := ls } := by
                simp [callsOf, hl, Call.ofLevel?]
              simp only [readClosing, Scan.closeLevel?_ofNesting_hole m hl, if_true, hcalls]
              exact run_literal lines _ { m with levels := ls } r.offset r.rest
          | _ => exact closes (by simp) (by simp [hl])
  | backtick =>
      have hcomments := Scan.leadingComments_ofNesting m
      simp only [hcomments]
      exact run_literal lines _ m.dropChain r.offset r.rest
  | slash => exact settled m.dropChain (Reading.skip _ r) _ rfl
  | lessThan =>
      have hchain : (Scan.ofNesting m).chain = m.chain := rfl
      simp only [hchain]
      cases m.chain with
      | none => exact settled m.dropChain r _ rfl
      | some c =>
          have hrest : (ofReading r).rest = r.rest := rfl
          simp only [hrest]
          cases typeArgumentsLength r.rest with
          | none => exact settled m.dropChain r _ rfl
          | some more => exact settled m (Reading.skip more r) _ rfl
  | semicolon | comma =>
      have hdrop : (Scan.ofNesting m).dropChain = .ofNesting m.dropChain := rfl
      simp only [hdrop, Scan.modifyStatement_ofNesting]
      exact settled (m.dropChain.modifyStatement Statement.finish) r _
        (Scan.callsOf_modifyStatement m.dropChain _).symm
  | _ => exact settled m.dropChain r _ rfl

/-- A lexeme is read as without the machine. -/
theorem run_readLexeme (n : Nesting) (o : Nat) (c : Char) (t : Text) :
    run lines (ofReading ⟨n, o, c :: t⟩) =
      (Template.readLexeme lines n o c t).bind fun r => run lines (ofReading r) := by
  have hnext : next? lines (ofReading ⟨n, o, c :: t⟩) =
      .ok (some ((ofReading ⟨n, o, c :: t⟩).readLexeme lines c t)) := rfl
  rw [run_of_next? hnext]
  simp only [readLexeme, Template.readLexeme]
  generalize Lexeme.read c t = lexeme
  obtain ⟨kind, text⟩ := lexeme
  rcases kind with _ | k
  · rfl
  cases k with
  | blanks | blockComment => rfl
  | lineBreak =>
      have hcalls : callsOf n.breakLine = callsOf n := by
        rw [Nesting.breakLine]
        split
        · exact Scan.callsOf_modifyStatement n _
        · rfl
      simp only [Except.bind, ofReading, hcalls, Scan.breakLine_ofNesting]
  | lineComment =>
      simp only [Except.bind, ofReading, Scan.modifyStatement_ofNesting,
        Scan.callsOf_modifyStatement]
  | _ => exact run_readCode lines _ text o ⟨n, o + Text.byteSize text, Lexeme.rest c t⟩

/-- The template around the innermost hole waits for the innermost call. -/
theorem innermost?_eq_head? (n : Nesting) :
    n.innermost? = (callsOf n).head?.map Call.template := by
  rw [Nesting.innermost?, callsOf, List.head?_filterMap]
  induction n.levels with
  | nil => rfl
  | cons l ls ih =>
      obtain ⟨opener, st⟩ := l
      cases opener <;> simp [Call.ofLevel?, List.findSome?_cons, ih]

/-- **The machine reads what is read without it**, from any place that reading comes to. -/
theorem run_ofReading (n : Nesting) (o : Nat) (t : Text) :
    run lines (ofReading ⟨n, o, t⟩) = (readToEnd lines n o t).map Scan.ofNesting := by
  match t with
  | [] =>
      rw [readToEnd, innermost?_eq_head?]
      cases hcalls : callsOf n with
      | nil =>
          have hnext : next? lines (ofReading ⟨n, o, []⟩) = .ok none := by
            simp only [next?, ofReading, hcalls]
          rw [run_of_next?_none hnext]
          rfl
      | cons call calls =>
          have hnext : next? lines (ofReading ⟨n, o, []⟩) = .error
              (.unterminated call.template.opening (lines.position call.template.opening)) := by
            simp only [next?, ofReading, hcalls]
          rw [run_of_next?_error hnext]
          rfl
  | c :: t =>
      rw [run_readLexeme, readToEnd_cons]
      cases hr : Template.readLexeme lines n o c t with
      | error e => rfl
      | ok r =>
          have hlt := Template.length_rest_readLexeme_lt hr
          exact run_ofReading r.nesting r.offset r.rest
termination_by t.length
decreasing_by exact hlt

end

/-- **The machine finds the templates that are found without it.** -/
theorem findTemplates_eq (source : Text) :
    findTemplates source = Template.findTemplates source := by
  have hstart : start source = ofReading ⟨{}, 0, source⟩ := rfl
  rw [findTemplates, Template.findTemplates, hstart, run_ofReading]
  cases readToEnd (LineMap.ofText source) {} 0 source <;> rfl

end Machine

end StyleBlocks
