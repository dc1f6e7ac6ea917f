import StyleBlocks.Proofs.Checked.Lookahead

/-!
# Statements with checked access

A statement is read from the index of its first token on. Its texts are cut out of the source at the starts
and ends of the tokens that looking ahead has found.

## Main results

* `Checked.readStatement_eq`: reading a statement does not fault.
-/

namespace StyleBlocks.Checked

open Sheet

/-! ### Reading -/

/-- A statement and the index of the token after it. -/
structure Read where
  /-- The statement. -/
  statement : Sheet.Statement
  /-- The index. -/
  next : Nat

section

variable (g : Grammar) (source : Text) (lines : LineMap) (tokens : List Spanned) (before : Text)

/-- Reads the comment at an index. An inline comment has no mark behind its text. -/
def readComment (inline : Bool) (i : Nat) (t : Spanned) : Option Read := do
  let stop ← if inline then some t.span.stop else sub t.span.stop 2
  let text ← Text.slice? (t.span.start + 2) stop source
  let comment : Comment :=
    { text := text
      inline := inline
      before := some before
      source := some (← range lines t.span) }
  return ⟨.whole (.comment comment) false, i + 1⟩

/-- Reads the head of the rule that goes from an index up to the brace at another one. -/
def readRuleHead (first brace : Nat) : Option Read := do
  let start := (← tokens[first]?).span.start
  let stop := (← tokens[brace]?).span.start
  let selectorStop ← stopOfLast tokens first brace start
  let head : RuleHead :=
    { selector := ← Text.slice? start selectorStop source
      before := some before
      between := some (← Text.slice? selectorStop stop source) }
  return ⟨.opening (.rule head) start stop, brace + 1⟩

/-- Reads the rule without a block that goes from an index up to the semicolon at another one. -/
def readMixin (first semicolon : Nat) : Option Read := do
  let start := (← tokens[first]?).span.start
  let stop := (← tokens[semicolon]?).span
  let selectorStop ← stopOfLast tokens first semicolon start
  let head : RuleHead :=
    { selector := ← Text.slice? start selectorStop source
      mixin := true
      before := some before
      between := some (← Text.slice? selectorStop stop.start source)
      source := some (← range lines ⟨start, stop.stop⟩) }
  return ⟨.whole (.rule head []) true, semicolon + 1⟩

/-- Where the value behind the colon at an index stands. Without a value, that is the place of the semicolon
that ends the declaration, or else the place behind the colon. -/
def valueOf (colon colonStop : Nat) (stop : Stop) : Option Core := do
  match ← coreOf tokens (colon + 1) stop.index, stop with
  | some value, _ => return value
  | none, .semicolon i =>
    let place := (← tokens[i]?).span.start
    return ⟨place, place, i⟩
  | none, _ => return ⟨colonStop, colonStop, colon + 1⟩

/-- Reads the declaration that starts at an index, with the colon at another one. -/
def readDeclaration (first colon : Nat) (stop : Stop) : Option Read := do
  let start := (← tokens[first]?).span.start
  let colonSpan := (← tokens[colon]?).span
  let propStop ← stopOfLast tokens first colon colonSpan.start
  let value ← valueOf tokens colon colonSpan.stop stop
  let declaration (after : Text) (stop : Nat) : Option Node := do
    return .declaration
      { prop := ← Text.slice? start propStop source
        value := ← Text.slice? value.start value.stop source
        before := some before
        between := some (← Text.slice? propStop value.start source)
        after := some after
        source := some (← range lines ⟨start, stop⟩) }
  match stop with
  | .semicolon i =>
    let span := (← tokens[i]?).span
    let after ← Text.slice? value.stop span.start source
    return ⟨.whole (← declaration after span.stop) true, i + 1⟩
  | _ => return ⟨.whole (← declaration [] value.stop) false, value.next⟩

/-- Reads the rule or declaration without a block that starts at an index. -/
def readLeaf (first : Nat) (stop : Stop) : Option (Except ParseError Read) := do
  match ← findColon tokens first stop.index with
  | some colon => return .ok (← readDeclaration source lines tokens before first colon stop)
  | none =>
    match g.bareStatements, stop with
    | true, .semicolon i => return .ok (← readMixin source lines tokens before first i)
    | _, _ =>
      let span := (← tokens[first]?).span
      let word ← Text.slice? span.start span.stop source
      return .error (.unknownWord word (← position lines span.start))

/-- Reads the rule or declaration that starts at an index. -/
def readRuleOrDeclaration (first : Nat) : Option (Except ParseError Read) := do
  match ← findStop tokens first with
  | .brace i => return .ok (← readRuleHead source tokens before first i)
  | stop => readLeaf g source lines tokens before first stop

/-- Where the parameters behind the name at an index stand, or the place behind the name if there are
none. -/
def paramsOf (first nameStop : Nat) (stop : Stop) : Option Core := do
  return (← coreOf tokens (first + 1) stop.index).getD ⟨nameStop, nameStop, first + 1⟩

/-- Reads the at-rule that starts at an index. -/
def readAtRule (first : Nat) : Option Read := do
  let span := (← tokens[first]?).span
  let name ← Text.slice? (span.start + 1) span.stop source
  let stop ← findStop tokens (first + 1)
  let params ← paramsOf tokens first span.stop stop
  let head : AtRuleHead :=
    { name := name
      params := ← Text.slice? params.start params.stop source
      before := some before
      afterName := some (← Text.slice? span.stop params.start source)
      between := some [] }
  match stop with
  | .brace i =>
    let brace := (← tokens[i]?).span.start
    let between ← Text.slice? params.stop brace source
    return ⟨.opening (.atRule { head with between := some between }) span.start brace, i + 1⟩
  | .semicolon i =>
    let last := (← tokens[i]?).span
    let between ← Text.slice? params.stop last.start source
    let place ← range lines ⟨span.start, last.stop⟩
    let head := { head with between := some between, source := some place }
    return ⟨.whole (.atStatement head) true, i + 1⟩
  | .outside _ =>
    let place ← range lines ⟨span.start, params.stop⟩
    return ⟨.whole (.atStatement { head with source := some place }) false, params.next⟩

/-- Reads the statement that starts with the token at an index. -/
def readStatement (i : Nat) (t : Spanned) : Option (Except ParseError Read) := do
  match t.kind with
  | .comment => return .ok (← readComment source lines before false i t)
  | .atWord => return .ok (← readAtRule source lines tokens before i)
  | kind =>
    if kind = .lineComment ∧ g.inlineComments then
      return .ok (← readComment source lines before true i t)
    else readRuleOrDeclaration g source lines tokens before i

end

/-! ### Reading does not fault -/

/-- A statement that has been read, with the index of the token after it in place of the tokens. -/
def Read.ofRead (all : List Token) (r : Sheet.Read) : Read where
  statement := r.statement
  next := all.length - r.rest.length

section

variable {g : Grammar} {source : Text} {lines : LineMap} (before : Text)
  {all done inner rest ts : List Token} {t u : Token}

/-- The index of the token that some tokens stand in front of. -/
theorem length_sub_of_append (hall : all = done ++ rest) : all.length - rest.length = done.length := by
  simp [hall]

/-- The index behind a token is told by the tokens that are left. -/
theorem length_sub_of_cons (hall : all = done ++ u :: rest) :
    all.length - rest.length = done.length + 1 := by
  simpa using length_sub_of_append (show all = (done ++ [u]) ++ rest by simp [hall])

/-- A cut inside a token, at places that are boundaries of its text. -/
theorem Cuts.slice?_inside (h : Cuts source all) (hall : all = done ++ t :: rest) {p s r : Text}
    (ht : t.text = p ++ s ++ r) :
    Text.slice? (t.start + Text.byteSize p) (t.start + Text.byteSize (p ++ s)) source = some s := by
  have hsource : source = (Token.texts done ++ p) ++ s ++ (r ++ Token.texts rest) := by
    rw [← h.texts, hall, Token.texts_append, Token.texts_cons, ht]
    simp only [List.append_assoc]
  have hcut := Text.slice?_append (Token.texts done ++ p) s (r ++ Token.texts rest)
  rw [← hsource, List.append_assoc, Text.byteSize_append, Text.byteSize_append] at hcut
  rw [h.start_eq hall]
  exact hcut

/-- **Reading a comment does not fault.** -/
theorem readComment_eq (h : Cuts source all) (hlines : IsAscending lines) (inline : Bool)
    (hk : t.kind = if inline then .lineComment else .comment) (hall : all = done ++ t :: ts) :
    readComment source lines before inline done.length (.ofToken t) =
      some (.ofRead all (Sheet.readComment lines before inline (if inline then 0 else 2) t ts)) := by
  have hform : t.HasForm := h.hasForm t (hall ▸ by simp)
  have hspan : (Spanned.ofToken t).span = t.span := rfl
  simp only [readComment, Sheet.readComment, Read.ofRead, range_eq hlines, length_sub_of_cons hall, hspan]
  cases inline with
  | true =>
      obtain ⟨inner, ht, -⟩ : ∃ inner, t.text = '/' :: '/' :: inner ∧ '\n' ∉ inner := by
        simpa [Token.HasForm, hk] using hform
      have hcut : Text.slice? (t.span.start + 2) t.span.stop source = some inner := by
        simpa [Token.span, Token.stop, ht] using
          h.slice?_inside hall (p := ['/', '/']) (s := inner) (r := []) (by simp [ht])
      simp [hcut, ht]
  | false =>
      obtain ⟨inner, ht⟩ : ∃ inner, t.text = '/' :: '*' :: (inner ++ ['*', '/']) := by
        simpa [Token.HasForm, hk] using hform
      have hsub : sub t.span.stop 2 = some (t.start + (1 + (1 + Text.byteSize inner))) := by
        have hsize : t.span.stop = t.start + (1 + (1 + Text.byteSize inner)) + 2 := by
          simp [Token.span, Token.stop, ht, Nat.add_assoc]
        rw [hsize, sub_of_le (by omega), Nat.add_sub_cancel]
      have hcut : Text.slice? (t.span.start + 2) (t.start + (1 + (1 + Text.byteSize inner))) source =
          some inner := by
        simpa [Token.span] using
          h.slice?_inside hall (p := ['/', '*']) (s := inner) (r := ['*', '/']) (by simp [ht])
      simp [hsub, hcut, ht]

/-- The texts of tokens and of the blanks behind them are cut out one after the other. -/
theorem Cuts.slice?_cutBlanks (h : Cuts source all) (hall : all = done ++ inner ++ rest) :
    Text.slice? (offset done) (offset (done ++ (cutBlanks inner).1)) source =
        some (Token.texts (cutBlanks inner).1) ∧
      Text.slice? (offset (done ++ (cutBlanks inner).1)) (offset (done ++ inner)) source =
        some (Token.texts (cutBlanks inner).2) := by
  have hcut : all = done ++ (cutBlanks inner).1 ++ (cutBlanks inner).2 ++ [] ++ rest := by
    rw [List.append_nil, List.append_assoc done, cutBlanks_append, hall]
  obtain ⟨hfront, hback, -⟩ := h.slice?_inTurn hcut
  rw [List.append_assoc done, cutBlanks_append] at hback
  exact ⟨hfront, hback⟩

/-- Where tokens end without the blanks behind them, if their start is where they end without any. -/
theorem stopOfLast_start (h : Cuts source all) (hall : all = done ++ inner ++ rest) :
    stopOfLast (all.map Spanned.ofToken) done.length (done ++ inner).length (offset done) =
      some (offset (done ++ (cutBlanks inner).1)) := by
  rw [stopOfLast_eq h hall]
  split
  · next hnil => rw [hnil, List.append_nil]
  · rfl

/-- A token keeps its span. -/
@[simp] theorem Spanned.span_ofToken (t : Token) : (Spanned.ofToken t).span = ⟨t.start, t.stop⟩ :=
  rfl

/-- The token behind some others, the first of some more. -/
theorem Cuts.getElem?_first (h : Cuts source all) (hall : all = done ++ inner ++ u :: rest) :
    ∃ v : Token, (all.map Spanned.ofToken)[done.length]? = some (.ofToken v) ∧
      v.start = offset done := by
  obtain ⟨v, vs, hv⟩ : ∃ v vs, inner ++ u :: rest = v :: vs := by cases inner <;> simp
  have hfirst : all = done ++ v :: vs := by rw [hall, List.append_assoc, hv]
  exact ⟨v, getElem?_eq hfirst, h.start_eq hfirst⟩

/-- **Reading the head of a rule does not fault.** -/
theorem readRuleHead_eq (h : Cuts source all) (hall : all = done ++ inner ++ u :: rest) :
    readRuleHead source (all.map Spanned.ofToken) before done.length (done ++ inner).length =
      some (.ofRead all ⟨.opening (.rule
        { selector := Token.texts (cutBlanks inner).1
          before := some before
          between := some (Token.texts (cutBlanks inner).2) }) (offset done) u.start, rest⟩) := by
  obtain ⟨v, hlook, hv⟩ := h.getElem?_first hall
  obtain ⟨hselector, hbetween⟩ := h.slice?_cutBlanks hall
  simp only [readRuleHead, hlook, getElem?_eq hall, Spanned.span_ofToken, hv, h.start_eq hall,
    stopOfLast_start h hall, hselector, hbetween, Option.bind_eq_bind, Option.bind_some, Read.ofRead,
    length_sub_of_cons hall]
  rfl

/-- **Reading a rule without a block does not fault.** -/
theorem readMixin_eq (h : Cuts source all) (hlines : IsAscending lines)
    (hall : all = done ++ inner ++ u :: rest) :
    readMixin source lines (all.map Spanned.ofToken) before done.length (done ++ inner).length =
      some (.ofRead all ⟨.whole (.rule
        { selector := Token.texts (cutBlanks inner).1
          mixin := true
          before := some before
          between := some (Token.texts (cutBlanks inner).2)
          source := some (lines.range ⟨offset done, u.stop⟩) } []) true, rest⟩) := by
  obtain ⟨v, hlook, hv⟩ := h.getElem?_first hall
  obtain ⟨hselector, hbetween⟩ := h.slice?_cutBlanks hall
  simp only [readMixin, hlook, getElem?_eq hall, Spanned.span_ofToken, hv, h.start_eq hall,
    stopOfLast_start h hall, hselector, hbetween, range_eq hlines, Option.bind_eq_bind,
    Option.bind_some, Read.ofRead, length_sub_of_cons hall]
  rfl

/-- Behind a token, what is not blank ends where its last token does. -/
theorem Cuts.stopOf_core (h : Cuts source all) (hall : all = done ++ t :: inner ++ rest) :
    stopOf (trimBlanks inner).core t.stop =
      offset (done ++ t :: ((trimBlanks inner).front ++ (trimBlanks inner).core)) := by
  have hall' : all = done ++ t :: ((trimBlanks inner).front ++ (trimBlanks inner).core) ++
      ((trimBlanks inner).back ++ rest) := by
    conv => lhs; rw [hall, ← trimBlanks_append inner]
    simp only [List.append_assoc, List.cons_append]
  have hlast := h.stop_getLast? (List.cons_ne_nil _ _) hall'
  rw [stop_getLast?_cons_trimBlanks] at hlast
  exact Option.some.inj hlast

/-- The tokens between a colon and the value behind it. Blanks without a value belong there if a semicolon
ends them, and follow the declaration otherwise. -/
def gapOf (right : List Token) (ending : Ending) : List Token :=
  match ending with
  | .semicolon _ _ =>
    if (trimBlanks right).core = [] then (trimBlanks right).back else (trimBlanks right).front
  | _ => (trimBlanks right).front

/-- **The place of a value is found without a fault.** -/
theorem valueOf_eq (h : Cuts source all) {colon : Token} {right : List Token} {ending : Ending}
    (hall : all = done ++ colon :: right ++ ending.tokens) :
    valueOf (all.map Spanned.ofToken) done.length colon.stop
        (.ofEnding (done ++ colon :: right).length ending) =
      some ⟨offset (done ++ colon :: gapOf right ending),
        offset (done ++ colon :: gapOf right ending ++ (trimBlanks right).core),
        (done ++ colon :: gapOf right ending ++ (trimBlanks right).core).length⟩ := by
  have hcolon : all = done ++ colon :: (right ++ ending.tokens) := by simpa using hall
  have hcore := coreOf_eq h (show all = (done ++ [colon]) ++ right ++ ending.tokens by simpa using hall)
  simp only [List.append_assoc, List.cons_append, List.nil_append] at hcore
  rw [List.length_append, List.length_singleton] at hcore
  rw [valueOf, Stop.index_ofEnding, hcore]
  by_cases hnil : (trimBlanks right).core = []
  · have hfront := front_eq_nil_of_core_eq_nil hnil
    have hback : (trimBlanks right).back = right := by simpa [hnil, hfront] using trimBlanks_append right
    simp only [hnil, gapOf, hback, hfront, List.append_nil, if_true, Option.bind_eq_bind,
      Option.bind_some]
    cases ending with
    | semicolon u rest =>
        have hlook := getElem?_eq hall
        have hu := h.start_eq hall
        simp only [Stop.ofEnding, hlook, Option.bind_some, Spanned.span_ofToken, hu]
        rfl
    | brace u rest | outside rest =>
        simp only [Stop.ofEnding, h.stop_eq hcolon, List.length_append, List.length_singleton]
        rfl
  · have hgap : gapOf right ending = (trimBlanks right).front := by
      cases ending <;> simp [gapOf, hnil]
    simp only [if_neg hnil, hgap, List.append_assoc, List.cons_append, Option.bind_eq_bind,
      Option.bind_some]
    rfl

/-- What stands behind a value, in front of what ends the declaration. -/
def backOf (right : List Token) (ending : Ending) : List Token :=
  match ending with
  | .semicolon _ _ => if (trimBlanks right).core = [] then [] else (trimBlanks right).back
  | _ => (trimBlanks right).back

/-- The gap in front of a value, the value and what is behind it make up what stands behind the
colon. -/
theorem gapOf_append_backOf (right : List Token) (ending : Ending) :
    gapOf right ending ++ (trimBlanks right).core ++ backOf right ending = right := by
  have hright := trimBlanks_append right
  by_cases hnil : (trimBlanks right).core = []
  · rw [hnil, front_eq_nil_of_core_eq_nil hnil] at hright
    cases ending <;> simpa [gapOf, backOf, hnil, front_eq_nil_of_core_eq_nil hnil] using hright
  · cases ending <;> simpa [gapOf, backOf, hnil] using hright

/-- The declaration read, with what stands around its value named. -/
theorem readDeclaration_eq_gapOf (lines : LineMap) (before : Text) (start : Nat) (left : List Token)
    (colon : Token) (right : List Token) (ending : Ending) :
    Sheet.readDeclaration lines before start left colon right ending =
      let node (after : List Token) (stop : Nat) : Node :=
        .declaration
          { prop := Token.texts (cutBlanks left).1
            value := Token.texts (trimBlanks right).core
            before := some before
            between := some (Token.texts ((cutBlanks left).2 ++ colon :: gapOf right ending))
            after := some (Token.texts after)
            source := some (lines.range ⟨start, stop⟩) }
      match ending with
      | .semicolon u rest => ⟨.whole (node (backOf right ending) u.stop) true, rest⟩
      | _ => ⟨.whole (node [] (stopOf (trimBlanks right).core colon.stop)) false,
          backOf right ending ++ ending.tokens⟩ := by
  cases ending with
  | semicolon u rest =>
      by_cases hnil : (trimBlanks right).core = [] <;>
        simp [Sheet.readDeclaration, gapOf, backOf, hnil]
  | brace u rest | outside rest => simp [Sheet.readDeclaration, gapOf, backOf, Ending.tokens]

/-- **Reading a declaration does not fault.** -/
theorem readDeclaration_eq (h : Cuts source all) (hlines : IsAscending lines) {left right : List Token}
    {colon : Token} {ending : Ending} (hleft : left = [] ∨ (cutBlanks left).1 ≠ [])
    (hall : all = done ++ left ++ colon :: right ++ ending.tokens) :
    readDeclaration source lines (all.map Spanned.ofToken) before done.length (done ++ left).length
        (.ofEnding (done ++ left ++ colon :: right).length ending) =
      some (.ofRead all
        (Sheet.readDeclaration lines before (offset done) left colon right ending)) := by
  have hcolon : all = (done ++ left) ++ colon :: (right ++ ending.tokens) := by simpa using hall
  obtain ⟨v, hlook, hv⟩ := h.getElem?_first hcolon
  have hstop : stopOfLast (all.map Spanned.ofToken) done.length (done ++ left).length colon.start =
      some (offset (done ++ (cutBlanks left).1)) := by
    rw [stopOfLast_eq h hcolon, h.start_eq hcolon]
    split
    · next hnil =>
        obtain rfl := hleft.resolve_right fun hne => hne hnil
        rw [hnil]
    · rfl
  have hvalue := valueOf_eq h hall
  -- The texts of the declaration stand one behind the other.
  generalize hgap : (cutBlanks left).2 ++ colon :: gapOf right ending = gap
  have hfront : done ++ left ++ colon :: gapOf right ending = done ++ (cutBlanks left).1 ++ gap := by
    conv => lhs; rw [← cutBlanks_append left]
    simp only [← hgap, List.append_assoc]
  have hback : done ++ left ++ colon :: right =
      done ++ (cutBlanks left).1 ++ gap ++ (trimBlanks right).core ++ backOf right ending := by
    rw [← hfront]
    conv => lhs; rw [← gapOf_append_backOf right ending]
    simp only [List.append_assoc, List.cons_append]
  have hsplit := hall
  rw [hback] at hsplit
  obtain ⟨hprop, -⟩ := h.slice?_cutBlanks hcolon
  obtain ⟨hbetween, htext, hafter⟩ := h.slice?_inTurn hsplit
  have hnext := length_sub_of_append (hsplit.trans (List.append_assoc _ _ _))
  rw [hfront] at hvalue
  rw [readDeclaration_eq_gapOf, hgap]
  simp only [readDeclaration, hlook, getElem?_eq hcolon, Spanned.span_ofToken, hv, hstop, hvalue, hprop,
    hbetween, htext, range_eq hlines, Option.bind_eq_bind, Option.bind_some]
  cases ending with
  | semicolon u rest =>
      have hstart := h.start_eq hall
      rw [hback] at hstart
      simp only [Stop.ofEnding, getElem?_eq hall, Option.bind_some, Spanned.span_ofToken, hstart, hafter,
        Read.ofRead, length_sub_of_cons hall]
      rfl
  | brace u rest | outside rest =>
      have hlast := h.stopOf_core hall
      have hfront' : done ++ left ++ colon :: ((trimBlanks right).front ++ (trimBlanks right).core) =
          done ++ (cutBlanks left).1 ++ gap ++ (trimBlanks right).core := by
        rw [← hfront]
        simp [gapOf]
      rw [hfront'] at hlast
      simp only [Stop.ofEnding, Read.ofRead, hlast, hnext]
      rfl

/-- What starts with a token that is not blank is not made of blanks. -/
theorem fst_cutBlanks_ne_nil (ht : t.isSpace = false) (ts : List Token) :
    (cutBlanks (t :: ts)).1 ≠ [] := by
  intro hnil
  have hcut := cutBlanks_append (t :: ts)
  rw [hnil, List.nil_append] at hcut
  have hmem : t ∈ (cutBlanks (t :: ts)).2 := by simp [hcut]
  simp [isSpace_of_mem_cutBlanks hmem] at ht

/-- What is in front of a colon starts with a token that is not blank, if anything is. -/
theorem eq_nil_or_fst_cutBlanks_ne_nil {left right : List Token} {colon : Token} (ht : t.isSpace = false)
    (hinner : left ++ colon :: right ++ rest = t :: ts) : left = [] ∨ (cutBlanks left).1 ≠ [] := by
  cases left with
  | nil => exact Or.inl rfl
  | cons v vs =>
      obtain ⟨rfl, -⟩ := List.cons.inj hinner
      exact Or.inr (fst_cutBlanks_ne_nil ht vs)

/-- **Reading a rule or declaration without a block does not fault.** -/
theorem readLeaf_eq (h : Cuts source all) (hlines : IsAscending lines) (ht : t.isSpace = false)
    {ending : Ending} (hbrace : ∀ u rest, ending ≠ .brace u rest)
    (hinner : inner ++ ending.tokens = t :: ts) (hall : all = done ++ t :: ts) :
    readLeaf g source lines (all.map Spanned.ofToken) before done.length
        (.ofEnding (done ++ inner).length ending) =
      some ((Sheet.readRuleOrDeclaration g lines before t inner ending).map (Read.ofRead all)) := by
  have hsplit : all = done ++ inner ++ ending.tokens := by rw [List.append_assoc, hinner, hall]
  have hcolon := findColon_eq hsplit
  have hcut := cutOutside_append (fun u => u.kind = .colon) 0 inner
  have hword := h.slice?_token hall
  rw [readLeaf.eq_def, Stop.index_ofEnding, hcolon]
  generalize hc : cutOutside (fun u => u.kind = .colon) 0 inner = cut at hcut
  obtain ⟨left, _ | ⟨colon, right⟩⟩ := cut
  · -- Without a colon, it can only be a rule that a semicolon ends.
    simp only [Option.bind_eq_bind, Option.bind_some, getElem?_eq hall, Spanned.span_ofToken, hword,
      position_eq hlines]
    cases ending with
    | brace u rest => exact absurd rfl (hbrace u rest)
    | semicolon u rest =>
        have hmixin := readMixin_eq before h hlines hsplit
        simp only [Sheet.readRuleOrDeclaration, hc, Stop.ofEnding]
        cases g.bareStatements with
        | true =>
            simp only [hmixin, ← h.start_eq hall]
            rfl
        | false => rfl
    | outside rest =>
        simp only [Sheet.readRuleOrDeclaration, hc, Stop.ofEnding]
        cases g.bareStatements <;> rfl
  · obtain rfl : left ++ colon :: right = inner := hcut
    have hleft := eq_nil_or_fst_cutBlanks_ne_nil ht hinner
    have hdeclaration := readDeclaration_eq before h hlines hleft
      (by rw [List.append_assoc done]; exact hsplit)
    rw [List.append_assoc done] at hdeclaration
    simp only [Option.bind_eq_bind, Option.bind_some, hdeclaration]
    cases ending with
    | brace u rest => exact absurd rfl (hbrace u rest)
    | semicolon u rest | outside rest =>
        simp only [Sheet.readRuleOrDeclaration, hc, h.start_eq hall]
        rfl

/-- **Reading a rule or declaration does not fault.** -/
theorem readRuleOrDeclaration_eq (h : Cuts source all) (hlines : IsAscending lines)
    (ht : t.isSpace = false) (hall : all = done ++ t :: ts) :
    readRuleOrDeclaration g source lines (all.map Spanned.ofToken) before done.length =
      some ((Sheet.readRuleOrDeclaration g lines before t
        (cutOutside Token.endsStatement 0 (t :: ts)).1
        (.ofTokens (cutOutside Token.endsStatement 0 (t :: ts)).2)).map (Read.ofRead all)) := by
  have hstop := findStop_eq hall
  have hinner := cutOutside_append Token.endsStatement 0 (t :: ts)
  rw [← Ending.tokens_ofTokens (cutOutside Token.endsStatement 0 (t :: ts)).2] at hinner
  rw [readRuleOrDeclaration.eq_def, hstop]
  generalize Ending.ofTokens (cutOutside Token.endsStatement 0 (t :: ts)).2 = ending at hinner ⊢
  generalize (cutOutside Token.endsStatement 0 (t :: ts)).1 = inner at hinner ⊢
  have hsplit : all = done ++ inner ++ ending.tokens := by rw [List.append_assoc, hinner, hall]
  cases ending with
  | brace u rest =>
      have hhead := readRuleHead_eq before h hsplit
      simp only [Stop.ofEnding, Option.bind_eq_bind, Option.bind_some, hhead, ← h.start_eq hall]
      rfl
  | semicolon u rest | outside rest => exact readLeaf_eq before h hlines ht (by simp) hinner hall

/-- **The place of parameters is found without a fault.** -/
theorem paramsOf_eq (h : Cuts source all) {ending : Ending}
    (hall : all = done ++ [t] ++ inner ++ ending.tokens) :
    paramsOf (all.map Spanned.ofToken) done.length t.stop
        (.ofEnding (done ++ [t] ++ inner).length ending) =
      some ⟨offset (done ++ [t] ++ (trimBlanks inner).front),
        offset (done ++ [t] ++ (trimBlanks inner).front ++ (trimBlanks inner).core),
        (done ++ [t] ++ (trimBlanks inner).front ++ (trimBlanks inner).core).length⟩ := by
  have hfirst : all = done ++ t :: (inner ++ ending.tokens) := by simpa using hall
  have hlength : done.length + 1 = (done ++ [t]).length := by simp
  rw [paramsOf, Stop.index_ofEnding, hlength, coreOf_eq h hall]
  by_cases hnil : (trimBlanks inner).core = []
  · simp only [hnil, front_eq_nil_of_core_eq_nil hnil, List.append_nil, if_true, h.stop_eq hfirst]
    rfl
  · rw [if_neg hnil]
    rfl

/-- **Reading an at-rule does not fault.** -/
theorem readAtRule_eq (h : Cuts source all) (hlines : IsAscending lines) (hk : t.kind = .atWord)
    (hall : all = done ++ t :: ts) :
    readAtRule source lines (all.map Spanned.ofToken) before done.length =
      some (.ofRead all (Sheet.readAtRule lines before t (cutOutside Token.endsStatement 0 ts).1
        (.ofTokens (cutOutside Token.endsStatement 0 ts).2))) := by
  obtain ⟨name, hname, -⟩ : ∃ name, t.text = '@' :: name ∧ '\n' ∉ name := by
    have hform : t.HasForm := h.hasForm t (hall ▸ by simp)
    simpa [Token.HasForm, hk] using hform
  have hcut : Text.slice? (t.start + 1) t.stop source = some name := by
    simpa [Token.stop, hname] using
      h.slice?_inside hall (p := ['@']) (s := name) (r := []) (by simp [hname])
  have hall' : all = (done ++ [t]) ++ ts := by simpa using hall
  have hstop := findStop_eq hall'
  have hinner := cutOutside_append Token.endsStatement 0 ts
  rw [← Ending.tokens_ofTokens (cutOutside Token.endsStatement 0 ts).2] at hinner
  generalize Ending.ofTokens (cutOutside Token.endsStatement 0 ts).2 = ending at hinner hstop ⊢
  generalize (cutOutside Token.endsStatement 0 ts).1 = inner at hinner hstop ⊢
  have hsplit : all = done ++ [t] ++ inner ++ ending.tokens := by rw [List.append_assoc, hinner, hall']
  have hparams := paramsOf_eq h hsplit
  have hlength : (done ++ [t]).length = done.length + 1 := by simp
  rw [hlength] at hstop
  -- The texts of the at-rule stand one behind the other.
  have hback : done ++ [t] ++ inner = done ++ [t] ++ (trimBlanks inner).front ++
      (trimBlanks inner).core ++ (trimBlanks inner).back := by
    conv => lhs; rw [← trimBlanks_append inner]
    simp only [List.append_assoc]
  have hsplit' := hsplit
  rw [hback] at hsplit'
  obtain ⟨hafterName, htext, hbetween⟩ := h.slice?_inTurn hsplit'
  have hnext := length_sub_of_append (hsplit'.trans (List.append_assoc _ _ _))
  rw [← h.stop_eq hall] at hafterName
  simp only [readAtRule, getElem?_eq hall, Spanned.span_ofToken, hcut, hstop, hparams, hafterName, htext,
    range_eq hlines, Option.bind_eq_bind, Option.bind_some]
  cases ending with
  | brace u rest | semicolon u rest =>
      have hstart := h.start_eq hsplit
      rw [hback] at hstart
      simp only [Stop.ofEnding, getElem?_eq hsplit, Option.bind_some, Spanned.span_ofToken, hstart, hbetween,
        Sheet.readAtRule, Read.ofRead, length_sub_of_cons hsplit, hname]
      rfl
  | outside rest =>
      have hlast := h.stopOf_core (show all = done ++ t :: inner ++ _ by simpa using hsplit)
      rw [show done ++ t :: ((trimBlanks inner).front ++ (trimBlanks inner).core) =
        done ++ [t] ++ (trimBlanks inner).front ++ (trimBlanks inner).core by simp] at hlast
      simp only [Ending.tokens] at hnext
      simp only [Stop.ofEnding, Sheet.readAtRule, Read.ofRead, hname, hlast, hnext]
      rfl

/-- **Reading a statement does not fault.** -/
theorem readStatement_eq (h : Cuts source all) (hlines : IsAscending lines) (ht : t.isSpace = false)
    (hall : all = done ++ t :: ts) :
    readStatement g source lines (all.map Spanned.ofToken) before done.length (.ofToken t) =
      some ((Sheet.readStatement g lines before t ts).map (Read.ofRead all)) := by
  have hkind : (Spanned.ofToken t).kind = t.kind := rfl
  have hread := readRuleOrDeclaration_eq (g := g) before h hlines ht hall
  simp only [readStatement, Sheet.readStatement, hkind]
  cases hk : t.kind with
  | comment =>
      rw [readComment_eq before h hlines false hk hall]
      rfl
  | atWord =>
      rw [readAtRule_eq before h hlines hk hall]
      rfl
  | lineComment =>
      cases g.inlineComments with
      | true =>
          rw [readComment_eq before h hlines true hk hall]
          rfl
      | false => exact hread
  | _ => exact hread

end

end StyleBlocks.Checked
