import StyleBlocks.Proofs.Checked.Skips
import StyleBlocks.Proofs.Template.Steps

/-!
# Finding templates with checked access

Host code is read at an offset of the source, from which the rest of the source is cut off anew for each
lexeme and each literal part; literal parts are read byte by byte. The levels form a stack like any
other, which nothing but the reading itself keeps from running empty.

## Main definitions

* `Checked.Scan`: the state of reading, with a stack of levels that could be empty.
* `Checked.findTemplates`: the tagged templates of host code.

## Main results

* `Checked.findTemplates_eq`: finding templates does not fault.
-/

namespace StyleBlocks.Checked

open Template

/-! ### The stack of levels -/

/-- An entry of the stack of levels: what opened it, if it is not the program as a whole, and its
current statement. -/
structure Frame where
  /-- What opened the level. -/
  opener : Option Opener := none
  /-- Its current statement. -/
  statement : Statement := {}

/-- The state of reading. -/
structure Scan where
  /-- The levels, outermost first. -/
  levels : List Frame := [{}]
  /-- The chain that ends at this place. -/
  chain : Option Chain := none
  /-- Whether a dot follows the chain. -/
  afterDot : Bool := false
  /-- Whether a slash at this place starts a regular expression. -/
  regexAllowed : Bool := true
  /-- The templates closed so far. -/
  closed : List Tagged := []

namespace Scan

/-- Applies a function to the statement of the last entry of the stack. -/
def modifyStatement (f : Statement → Statement) (s : Scan) : Option Scan := do
  let i ← sub s.levels.length 1
  let l ← s.levels[i]?
  return { s with levels := s.levels.set i { l with statement := f l.statement } }

/-- Forgets the chain. -/
def dropChain (s : Scan) : Scan :=
  { s with chain := none, afterDot := false }

/-- Opens a level. -/
def openLevel (o : Opener) (s : Scan) : Scan :=
  { s.dropChain with levels := s.levels ++ [{ opener := some o }] }

/-- Takes note of a line break. -/
def breakLine (s : Scan) : Option Scan :=
  match s.levels.getLast?.map Frame.opener with
  | some none | some (some .brace) => s.modifyStatement Statement.breakLine
  | _ => some s

/-- Reads a name at the given offset. -/
def identifier (name : Text) (offset : Nat) (s : Scan) : Scan :=
  let chain := match s.chain, s.afterDot with
    | some c, true => c.mapTag (.member · name)
    | _, _ => ⟨.identifier name, offset⟩
  { s with chain := some chain, afterDot := false }

/-- Reads a private name. -/
def privateName (name : Text) (s : Scan) : Scan :=
  let chain := match s.chain, s.afterDot with
    | some c, true => some (c.mapTag (.member · name))
    | _, _ => none
  { s with chain := chain, afterDot := false }

/-- Reads a closing parenthesis, bracket or brace that closes no hole. -/
def closeLevel (k : LexemeKind) (s : Scan) : Scan :=
  let left := s.levels.dropLast
  match k, s.levels.getLast?.bind Frame.opener with
  | .closeParen, some (.paren c) =>
    { s with levels := left, chain := c.map (Chain.mapTag .call), afterDot := false }
  | .closeBracket, some (.bracket c) =>
    { s with levels := left, chain := c.map (Chain.mapTag .computed), afterDot := false }
  | .closeBrace, some .brace => { s with levels := left, chain := none, afterDot := false }
  | _, _ => s

/-- Whether a slash after a lexeme starts a regular expression. -/
def regexAllowedAfter (k : LexemeKind) (text : Text) : Bool :=
  match k with
  | .identifier => Nesting.regexWords.contains text
  | .semicolon | .comma => true
  | k => !k.endsExpression

/-- Takes note of a lexeme after it has been acted on. -/
def settle (k : LexemeKind) (text : Text) (s : Scan) : Option Scan :=
  let s := { s with regexAllowed := regexAllowedAfter k text }
  match k with
  | .semicolon | .comma => some s
  | k => s.modifyStatement fun t => { t with endsExpression := k.endsExpression }

/-- The comments that lead the open statements, those of outer levels first. -/
def leadingComments (s : Scan) : List Text :=
  s.levels.flatMap fun l => l.statement.leading

/-- The template around the innermost hole. -/
def innermost? (s : Scan) : Option Unclosed :=
  s.levels.reverse.findSome? fun l =>
    match l.opener with
    | some (.hole u _) => some u
    | _ => none

/-- Closes a template at the offset `stop`; it is kept if it has a tag. -/
def closeTemplate (u : Unclosed) (stop : Nat) (s : Scan) : Option Scan :=
  settle .backtick [] { s.dropChain with closed := s.closed ++ (u.close? stop).toList }

/-- Opens the next hole of a template at the offset `start` of its expression. -/
def openHole (u : Unclosed) (start : Nat) (s : Scan) : Scan :=
  { s.openLevel (.hole u start) with regexAllowed := true }

/-- The state of reading with the levels of a nesting on the stack. -/
def ofNesting (n : Nesting) : Scan where
  levels := { statement := n.base } ::
    n.levels.reverse.map fun l => { opener := some l.opener, statement := l.statement }
  chain := n.chain
  afterDot := n.afterDot
  regexAllowed := n.regexAllowed
  closed := n.closed

end Scan

/-! ### Reading -/

/-- How far reading has come. -/
structure Place where
  /-- The state at this place. -/
  scan : Scan
  /-- The offset of this place. -/
  offset : Nat

section

variable (source : Text) (lines : LineMap)

/-- Reads on in a template, from an offset up to the end of the template or to its next hole. -/
def readLiteral (u : Unclosed) (s : Scan) (o : Nat) : Option (Except ScanError Place) := do
  let rest ← tail o source
  match RawText.segmentEnd (RawText.utf8 rest) with
  | none => return .error (.unterminated u.opening (← position lines u.opening))
  | some (i, delimiter) =>
    let start ← position lines o
    let stop ← position lines (o + i)
    let raw ← Text.slice? o (o + i) source
    let u := { u with quasis := u.quasis ++ [⟨⟨o, o + i⟩, start, stop, raw⟩] }
    match delimiter with
    | .backtick =>
      let next ← bump source o (i + 1)
      return .ok ⟨← s.closeTemplate u next, next⟩
    | .hole =>
      let next ← bump source o (i + 2)
      return .ok ⟨s.openHole u next, next⟩

/-- Passes over the regular expression that a slash at `start` opens, if it does; the lexeme of the
slash goes up to `o`. -/
def skipRegex (start o : Nat) : Option Nat := do
  let text ← tail (start + 1) source
  match ← regexBytes text with
  | some length =>
    if o < start + 1 + length then bump source o (← sub (start + 1 + length) o) else some o
  | none => some o

/-- Passes over the type arguments at an offset, if there are such in front of a backtick. -/
def skipTypeArguments (o : Nat) : Option (Option Nat) := do
  let text ← tail o source
  match ← typeArgumentsBytes text with
  | some length => return some (← bump source o length)
  | none => return none

/-- Acts on a lexeme that is not trivia, between the offsets `start` and `o`. -/
def readCode (k : LexemeKind) (text : Text) (start : Nat) (s : Scan) (o : Nat) :
    Option (Except ScanError Place) := do
  let s ← s.modifyStatement (Statement.meet k)
  let settled (s : Scan) (o : Nat) : Option (Except ScanError Place) := do
    return .ok ⟨← s.settle k text, o⟩
  match k with
  | .identifier => settled (s.identifier text start) o
  | .privateName => settled (s.privateName text) o
  | .dot | .optionalChain => settled { s with afterDot := s.chain.isSome } o
  | .openParen => settled (s.openLevel (.paren s.chain)) o
  | .openBracket => settled (s.openLevel (.bracket s.chain)) o
  | .openBrace => settled (s.openLevel .brace) o
  | .closeParen | .closeBracket => settled (s.closeLevel k) o
  | .closeBrace =>
    match s.levels.getLast?.bind Frame.opener with
    | some (.hole u holeStart) =>
      let hole : Hole := ⟨⟨holeStart, start⟩, ← position lines holeStart⟩
      readLiteral source lines { u with holes := u.holes ++ [hole] }
        { s with levels := s.levels.dropLast } o
    | _ => settled (s.closeLevel k) o
  | .backtick =>
    let u : Unclosed := { chain := s.chain, opening := start, leadingComments := s.leadingComments }
    readLiteral source lines u s.dropChain o
  | .slash =>
    let next ← (if s.regexAllowed then skipRegex source start o else some o)
    settled s.dropChain next
  | .lessThan =>
    match s.chain with
    | none => settled s.dropChain o
    | some _ =>
      match ← skipTypeArguments source o with
      | some next => settled s next
      | none => settled s.dropChain o
  | .semicolon | .comma => settled (← s.dropChain.modifyStatement Statement.finish) o
  | _ => settled s.dropChain o

/-- Reads the lexeme at the offset `o`, which the character `c` begins in front of `t`. -/
def readLexeme (s : Scan) (o : Nat) (c : Char) (t : Text) : Option (Except ScanError Place) := do
  let lexeme := Lexeme.read c t
  let stop := o + Text.byteSize lexeme.text
  match lexeme.kind with
  | none => return .ok ⟨s.dropChain, stop⟩
  | some .blanks | some .blockComment => return .ok ⟨s, stop⟩
  | some .lineBreak => return .ok ⟨← s.breakLine, stop⟩
  | some .lineComment =>
    let text ← Text.slice? (o + 2) stop source
    return .ok ⟨← s.modifyStatement (Statement.comment text), stop⟩
  | some k => readCode source lines k lexeme.text o s stop

/-- Reads all the code from an offset on. -/
def readToEnd (s : Scan) (o : Nat) : Option (Except ScanError Scan) := do
  match ← tail o source with
  | [] =>
    match s.innermost? with
    | some u => return .error (.unterminated u.opening (← position lines u.opening))
    | none => return .ok s
  | c :: t =>
    match ← readLexeme source lines s o c t with
    | .error e => return .error e
    | .ok p =>
      if o < p.offset ∧ p.offset ≤ Text.byteSize source then readToEnd p.scan p.offset else none
termination_by Text.byteSize source - o

end

/-- The tagged templates of host code, by the start of their tags. -/
def findTemplates (source : Text) : Option (Except ScanError (List Tagged)) := do
  let read ← readToEnd source (LineMap.ofText source) {} 0
  return read.map fun s => s.closed.mergeSort fun a b => a.span.start ≤ b.span.start

/-! ### The stack and the nesting -/

namespace Scan

variable (n : Nesting)

/-- The last entry of the stack is the bottom, if no level is open. -/
theorem getLast?_levels_of_nil (h : n.levels = []) :
    (ofNesting n).levels.getLast? = some { statement := n.base } := by
  simp [ofNesting, h]

/-- It is the innermost level otherwise. -/
theorem levels_of_cons {l : Level} {ls : List Level} (h : n.levels = l :: ls) :
    (ofNesting n).levels = (ofNesting { n with levels := ls }).levels ++
      [{ opener := some l.opener, statement := l.statement }] := by
  simp [ofNesting, h]

/-- The innermost level is the last of the stack. -/
theorem getLast?_levels_of_cons {l : Level} {ls : List Level} (h : n.levels = l :: ls) :
    (ofNesting n).levels.getLast? = some { opener := some l.opener, statement := l.statement } := by
  simp [levels_of_cons n h]

/-- Taking the last level off the stack takes the innermost one off. -/
theorem dropLast_levels_of_cons {l : Level} {ls : List Level} (h : n.levels = l :: ls) :
    (ofNesting n).levels.dropLast = (ofNesting { n with levels := ls }).levels := by
  simp [levels_of_cons n h]

/-- **The stack does not run empty**: its last entry can be changed. -/
theorem modifyStatement_ofNesting (f : Statement → Statement) :
    (ofNesting n).modifyStatement f = some (ofNesting (n.modifyStatement f)) := by
  cases h : n.levels <;> simp [modifyStatement, Nesting.modifyStatement, ofNesting, h]

/-- The chain is forgotten as without the checks. -/
theorem dropChain_ofNesting : (ofNesting n).dropChain = ofNesting n.dropChain :=
  rfl

/-- A level is opened as without the checks. -/
theorem openLevel_ofNesting (o : Opener) :
    (ofNesting n).openLevel o = ofNesting (n.openLevel o) := by
  simp [openLevel, Nesting.openLevel, ofNesting, dropChain, Nesting.dropChain]

/-- The stack is never empty, so a line break is taken note of without a fault. -/
theorem breakLine_ofNesting : (ofNesting n).breakLine = some (ofNesting n.breakLine) := by
  cases h : n.levels with
  | nil =>
      simp [breakLine, getLast?_levels_of_nil n h, modifyStatement_ofNesting, Nesting.breakLine,
        Nesting.breaksEndStatements, h]
  | cons l ls =>
      cases ho : l.opener <;>
        simp [breakLine, getLast?_levels_of_cons n h, modifyStatement_ofNesting, Nesting.breakLine,
          Nesting.breaksEndStatements, h, ho]

/-- A level is closed as without the checks. -/
theorem closeLevel_ofNesting (k : LexemeKind) :
    (ofNesting n).closeLevel k = ofNesting (n.closeLevel k) := by
  cases h : n.levels with
  | nil => cases k <;> simp [closeLevel, getLast?_levels_of_nil n h, Nesting.closeLevel, h]
  | cons l ls =>
      simp only [closeLevel, getLast?_levels_of_cons n h, dropLast_levels_of_cons n h,
        Option.bind_some, Nesting.closeLevel, h]
      cases k <;> cases l.opener <;> rfl

/-- A lexeme is taken note of without a fault. -/
theorem settle_ofNesting (k : LexemeKind) (text : Text) :
    (ofNesting n).settle k text = some (ofNesting (n.settle k text)) := by
  have h := modifyStatement_ofNesting { n with regexAllowed := regexAllowedAfter k text }
    fun t => { t with endsExpression := k.endsExpression }
  cases k with
  | semicolon | comma => rfl
  | _ => exact h

/-- The leading comments are those that are found without the checks. -/
theorem leadingComments_ofNesting : (ofNesting n).leadingComments = n.leadingComments := by
  simp only [leadingComments, ofNesting, List.flatMap_cons, List.flatMap_map]
  rfl

/-- The innermost template is the one that is found without the checks. -/
theorem innermost?_ofNesting : (ofNesting n).innermost? = n.innermost? := by
  rw [innermost?, ofNesting, List.reverse_cons, List.findSome?_append, ← List.map_reverse,
    List.reverse_reverse, List.findSome?_map, Nesting.innermost?]
  simp only [List.findSome?_cons, List.findSome?_nil, Option.or_none]
  congr 1
  funext l
  simp only [Function.comp_apply]
  split <;> split <;> simp_all

/-- A template is closed without a fault. -/
theorem closeTemplate_ofNesting (u : Unclosed) (stop : Nat) :
    (ofNesting n).closeTemplate u stop = some (ofNesting (n.closeTemplate u stop)) :=
  settle_ofNesting { n.dropChain with closed := n.closed ++ (u.close? stop).toList } .backtick []

/-- A hole is opened as without the checks. -/
theorem openHole_ofNesting (u : Unclosed) (start : Nat) :
    (ofNesting n).openHole u start = ofNesting (n.openHole u start) := by
  simp only [openHole, openLevel_ofNesting]
  rfl

end Scan

/-! ### Reading does not fault -/

/-- The place that reading has come to, without the code that is left. -/
def Place.ofReading (r : Reading) : Place where
  scan := .ofNesting r.nesting
  offset := r.offset

section

variable {source : Text} {lines : LineMap} {done rest : Text} {n : Nesting}

/-- A step from one place of the source to a later one. -/
theorem bump_of_eq {g back : Text} {k : Nat} (hsource : source = done ++ (g ++ back))
    (hk : k = Text.byteSize g) :
    bump source (Text.byteSize done) k = some (Text.byteSize done + k) := by
  subst hk hsource
  rw [← List.append_assoc, bump_append, Text.byteSize_append]

/-- **Reading a literal part does not fault.** -/
theorem readLiteral_eq (hlines : IsAscending lines) (hsource : source = done ++ rest)
    (u : Unclosed) :
    readLiteral source lines u (.ofNesting n) (Text.byteSize done) =
      some ((Template.readLiteral lines u ⟨n, Text.byteSize done, rest⟩).map Place.ofReading) := by
  have htail := tail_of_eq_append hsource
  simp only [readLiteral, Template.readLiteral, htail, RawText.segmentEnd_utf8, position_eq hlines,
    Option.bind_eq_bind, Option.bind_some]
  cases hseg : RawText.readSegment rest with
  | none => rfl
  | some seg =>
      have hrest := RawText.eq_append_of_readSegment hseg
      have hraw : Text.slice? (Text.byteSize done) (Text.byteSize done + Text.byteSize seg.raw)
          source = some seg.raw := by
        have := Text.slice?_append done seg.raw (seg.delimiter.text ++ seg.rest)
        rw [Text.byteSize_append] at this
        rw [hsource, hrest, List.append_assoc, ← List.append_assoc, this]
      simp only [Option.map_some, hraw, Option.bind_some]
      cases hd : seg.delimiter with
      | backtick =>
          have hnext : bump source (Text.byteSize done) (Text.byteSize seg.raw + 1) = _ :=
            bump_of_eq (show source = done ++ ((seg.raw ++ ['\x60']) ++ seg.rest) by
              rw [hsource, hrest, hd]; rfl) (by simp)
          simp [hnext, Scan.closeTemplate_ofNesting, Except.map, Place.ofReading, Nat.add_assoc]
      | hole =>
          have hnext : bump source (Text.byteSize done) (Text.byteSize seg.raw + 2) = _ :=
            bump_of_eq (show source = done ++ ((seg.raw ++ ['$', '{']) ++ seg.rest) by
              rw [hsource, hrest, hd]; rfl) (by simp)
          simp [hnext, Scan.openHole_ofNesting, Except.map, Place.ofReading, Nat.add_assoc]

/-- **A regular expression is passed over without a fault.** -/
theorem skipRegex_eq {text : Text} (htext : text.head? = some '/')
    (hsource : source = done ++ (text ++ rest)) :
    skipRegex source (Text.byteSize done) (Text.byteSize (done ++ text)) =
      some (Reading.skip ((regexLength (text.drop 1 ++ rest)).getD 0 - (text.length - 1))
        ⟨n, Text.byteSize (done ++ text), rest⟩).offset := by
  obtain ⟨t, rfl⟩ := List.head?_eq_some_iff.1 htext
  have htail : tail (Text.byteSize done + 1) source = some (t ++ rest) := by
    simpa [hsource] using tail_append (done ++ ['/']) (t ++ rest)
  simp only [skipRegex, htail, regexBytes_eq, Option.bind_eq_bind, Option.bind_some, List.drop_one,
    List.tail_cons]
  cases regexLength (t ++ rest) with
  | none => simp [Reading.skip]
  | some k =>
      have hsize : Text.byteSize ((t ++ rest).take k) =
          Text.byteSize (t.take k) + Text.byteSize (rest.take (k - t.length)) := by
        rw [List.take_append, Text.byteSize_append]
      have hcut := congrArg Text.byteSize (List.take_append_drop k t)
      have hbump : bump source (Text.byteSize (done ++ '/' :: t))
          (Text.byteSize (rest.take (k - t.length))) = some _ :=
        bump_of_eq (show source = (done ++ '/' :: t) ++
          (rest.take (k - t.length) ++ rest.drop (k - t.length)) by simp [hsource]) rfl
      have hstop : Text.byteSize (done ++ '/' :: t) = Text.byteSize done + 1 + Text.byteSize t := by
        simp [Nat.add_assoc]
      simp only [Option.map_some, Option.getD_some, Reading.skip, hsize, List.length_cons,
        Nat.add_sub_cancel]
      rw [Text.byteSize_append] at hcut
      split
      · next hlt =>
          -- The regular expression goes beyond the slash, so all of the lexeme belongs to it.
          have hlong : ¬ k ≤ t.length := by
            intro hk
            simp only [Nat.sub_eq_zero_of_le hk, List.take_zero, Text.byteSize_nil] at hlt
            omega
          have htake : t.take k = t := List.take_of_length_le (by omega)
          rw [htake] at hlt ⊢
          rw [sub_of_le (by omega)]
          simp only [Option.bind_some]
          rw [← hbump]
          congr 1
          omega
      · next hle =>
          have hnone : Text.byteSize (rest.take (k - t.length)) = 0 := by
            rcases Nat.le_total k t.length with hk | hk
            · simp [Nat.sub_eq_zero_of_le hk]
            · rw [List.take_of_length_le hk] at hle
              omega
          rw [hnone, Nat.add_zero]

/-- **Type arguments are passed over without a fault.** -/
theorem skipTypeArguments_eq (hsource : source = done ++ rest) :
    skipTypeArguments source (Text.byteSize done) =
      some ((typeArgumentsLength rest).map fun k =>
        (Reading.skip k ⟨n, Text.byteSize done, rest⟩).offset) := by
  have htail := tail_of_eq_append hsource
  simp only [skipTypeArguments, htail, typeArgumentsBytes_eq, Option.bind_eq_bind, Option.bind_some]
  cases typeArgumentsLength rest with
  | none => rfl
  | some k =>
      have hbump : bump source (Text.byteSize done) (Text.byteSize (rest.take k)) = some _ :=
        bump_of_eq (show source = done ++ (rest.take k ++ rest.drop k) by
          rw [hsource, List.take_append_drop]) rfl
      simp [hbump, Reading.skip]

/-- **Acting on a lexeme does not fault.** -/
theorem readCode_eq (hlines : IsAscending lines) {k : LexemeKind} {text : Text}
    (htext : k = .slash → text.head? = some '/') (hsource : source = done ++ (text ++ rest)) :
    readCode source lines k text (Text.byteSize done) (.ofNesting n)
        (Text.byteSize (done ++ text)) =
      some ((Template.readCode lines k text (Text.byteSize done)
        ⟨n, Text.byteSize (done ++ text), rest⟩).map Place.ofReading) := by
  have hrest : source = (done ++ text) ++ rest := by rw [hsource, List.append_assoc]
  rw [readCode, Scan.modifyStatement_ofNesting, Template.readCode.eq_def]
  simp only [Option.bind_eq_bind, Option.bind_some]
  generalize n.modifyStatement (Statement.meet k) = m
  have settled (m : Nesting) (r : Reading) :
      (do return .ok ⟨← (Scan.ofNesting m).settle k text, r.offset⟩) =
        some ((Except.ok { r with nesting := m.settle k text } : Except ScanError Reading).map
          Place.ofReading) := by
    rw [Scan.settle_ofNesting]
    rfl
  let r : Reading := ⟨n, Text.byteSize (done ++ text), rest⟩
  cases k with
  | identifier => exact settled (m.identifier text (Text.byteSize done)) r
  | privateName => exact settled (m.privateName text) r
  | dot | optionalChain => exact settled { m with afterDot := m.chain.isSome } r
  | openParen =>
      simp only [Scan.openLevel_ofNesting]
      exact settled (m.openLevel (.paren m.chain)) r
  | openBracket =>
      simp only [Scan.openLevel_ofNesting]
      exact settled (m.openLevel (.bracket m.chain)) r
  | openBrace =>
      simp only [Scan.openLevel_ofNesting]
      exact settled (m.openLevel .brace) r
  | closeParen | closeBracket =>
      simp only [Scan.closeLevel_ofNesting]
      exact settled (m.closeLevel _) r
  | closeBrace =>
      simp only [Scan.closeLevel_ofNesting, position_eq hlines, Option.bind_some]
      cases hlevels : m.levels with
      | nil =>
          simp only [Scan.getLast?_levels_of_nil m hlevels, Option.bind_some]
          exact settled (m.closeLevel .closeBrace) r
      | cons l ls =>
          simp only [Scan.getLast?_levels_of_cons m hlevels, Option.bind_some]
          cases hopener : l.opener with
          | hole u holeStart =>
              obtain ⟨opener, statement⟩ := l
              obtain rfl : opener = .hole u holeStart := hopener
              simp only [Scan.dropLast_levels_of_cons m hlevels]
              exact readLiteral_eq hlines hrest _
          | _ =>
              obtain ⟨opener, statement⟩ := l
              simp only at hopener
              subst hopener
              exact settled (m.closeLevel .closeBrace) r
  | backtick =>
      simp only [Scan.leadingComments_ofNesting]
      exact readLiteral_eq hlines hrest _
  | slash =>
      have hallowed : (Scan.ofNesting m).regexAllowed = m.regexAllowed := rfl
      have hskip := skipRegex_eq (n := m) (htext rfl) hsource
      simp only [hallowed]
      cases m.regexAllowed with
      | true =>
          simp only [if_true, hskip, Option.bind_some]
          exact settled m.dropChain (Reading.skip _ r)
      | false => exact settled m.dropChain r
  | lessThan =>
      have hchain : (Scan.ofNesting m).chain = m.chain := rfl
      have hskip := skipTypeArguments_eq (n := m) hrest
      simp only [hchain, hskip, Option.bind_some]
      cases m.chain with
      | none => exact settled m.dropChain r
      | some c =>
          cases typeArgumentsLength rest with
          | none => exact settled m.dropChain r
          | some k => exact settled m (Reading.skip k r)
  | semicolon | comma =>
      simp only [Scan.dropChain_ofNesting, Scan.modifyStatement_ofNesting, Option.bind_some]
      exact settled (m.dropChain.modifyStatement Statement.finish) r
  | _ => exact settled m.dropChain r

/-- A slash and a line comment start with slashes. -/
theorem text_of_kind {c : Char} {t : Text} :
    ((Lexeme.read c t).kind = some .slash → (Lexeme.read c t).text.head? = some '/') ∧
      ((Lexeme.read c t).kind = some .lineComment →
        ∃ u, (Lexeme.read c t).text = '/' :: '/' :: u) := by
  simp only [Lexeme.read, Lexeme.body]
  repeat' split
  all_goals simp_all

/-- **Reading a lexeme does not fault.** -/
theorem readLexeme_eq (hlines : IsAscending lines) {c : Char} {t : Text}
    (hsource : source = done ++ c :: t) :
    readLexeme source lines (.ofNesting n) (Text.byteSize done) c t =
      some ((Template.readLexeme lines n (Text.byteSize done) c t).map Place.ofReading) := by
  obtain ⟨hslash, hcomment⟩ := text_of_kind (c := c) (t := t)
  rw [← Lexeme.read_text_append_rest c t] at hsource
  simp only [readLexeme, Template.readLexeme, ← Text.byteSize_append]
  generalize Lexeme.read c t = lexeme at *
  obtain ⟨kind, text⟩ := lexeme
  rcases kind with _ | k
  · rfl
  cases k with
  | blanks | blockComment => rfl
  | lineBreak =>
      simp only [Scan.breakLine_ofNesting]
      rfl
  | lineComment =>
      obtain ⟨u, rfl⟩ := hcomment rfl
      have hstart : Text.byteSize (done ++ ['/', '/']) = Text.byteSize done + 2 := by
        rw [Text.byteSize_append]
        rfl
      have hslice := Text.slice?_append (done ++ ['/', '/']) u (Lexeme.rest c t)
      simp only [hstart, List.append_assoc, List.cons_append, List.nil_append] at hslice
      simp only [hsource, List.cons_append, hslice, Option.bind_eq_bind, Option.bind_some,
        Scan.modifyStatement_ofNesting]
      rfl
  | _ => exact readCode_eq hlines (fun h => hslash (congrArg some h)) hsource

/-- The place after a lexeme is a place of the text. -/
theorem comesFrom_of_readLexeme {o : Nat} {c : Char} {t : Text} {r : Reading}
    (h : Template.readLexeme lines n o c t = .ok r) : r.ComesFrom o (c :: t) := by
  -- A literal part is read behind a delimiter of one byte.
  have literal : ∀ {u : Unclosed} {m : Nesting} {d : Char}, d.utf8Size = 1 →
      Template.readLiteral lines u ⟨m, o + 1, t⟩ = .ok r → r.ComesFrom o (d :: t) := by
    intro u m d hd hr
    obtain ⟨raw, rest, -, ⟨rfl, rfl⟩ | ⟨rfl, rfl⟩⟩ := readLiteral_cases hr
    · exact ⟨d :: raw ++ ['\x60'], by simp, by simp [hd, Nat.add_assoc]⟩
    · exact ⟨d :: raw ++ ['$', '{'], by simp, by simp [hd, Nat.add_assoc]⟩
  rcases readLexeme_cases h with ⟨-, hr⟩ | ⟨rfl, m, comments, -, -, hr⟩ | ⟨rfl, m, u, s, -, -, hr⟩
  · exact hr
  · exact literal rfl hr
  · exact literal rfl hr

/-- **Reading host code does not fault**, from any place of it. -/
theorem readToEnd_eq {done rest : Text} {n : Nesting} (hlines : IsAscending lines)
    (hsource : source = done ++ rest) :
    readToEnd source lines (.ofNesting n) (Text.byteSize done) =
      some ((Template.readToEnd lines n (Text.byteSize done) rest).map Scan.ofNesting) := by
  have htail := tail_of_eq_append hsource
  rw [readToEnd, htail]
  match rest with
  | [] =>
      simp only [Option.bind_eq_bind, Option.bind_some, Scan.innermost?_ofNesting,
        position_eq hlines, Template.readToEnd]
      cases n.innermost? <;> rfl
  | c :: t =>
      simp only [Option.bind_eq_bind, Option.bind_some, readLexeme_eq hlines hsource,
        readToEnd_cons]
      cases hr : Template.readLexeme lines n (Text.byteSize done) c t with
      | error e => rfl
      | ok r =>
          obtain ⟨text, htext, hoffset⟩ := comesFrom_of_readLexeme hr
          have hlt := length_rest_readLexeme_lt hr
          have hne : text ≠ [] := by
            rintro rfl
            simp [htext] at hlt
          rw [← Text.byteSize_append] at hoffset
          have hread : source = (done ++ text) ++ r.rest := by rw [hsource, htext, List.append_assoc]
          have hgoes := byteSize_lt_of_append hread hne
          have hnext := readToEnd_eq (n := r.nesting) hlines hread
          rw [← hoffset] at hgoes hnext
          exact (if_pos hgoes).trans hnext
termination_by rest.length
decreasing_by exact hlt

end

/-- **Finding templates does not fault.** -/
theorem findTemplates_eq (source : Text) :
    findTemplates source = some (Template.findTemplates source) := by
  have h := readToEnd_eq (n := {}) (isAscending_ofText source) (List.nil_append source).symm
  change readToEnd source (LineMap.ofText source) {} 0 =
    some ((Template.readToEnd (LineMap.ofText source) {} 0 source).map Scan.ofNesting) at h
  simp only [findTemplates, Template.findTemplates, h, Option.bind_eq_bind, Option.bind_some]
  cases Template.readToEnd (LineMap.ofText source) {} 0 source <;> rfl

end StyleBlocks.Checked
