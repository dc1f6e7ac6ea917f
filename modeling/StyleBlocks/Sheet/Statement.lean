import StyleBlocks.Sheet.Node
import StyleBlocks.Sheet.Token

/-!
# Statements

A **statement** is what the tokens at one place of a style sheet begin: the head of a block, or a whole
node without one. Which of these it is shows at the first brace or semicolon outside parentheses and
square brackets: an opening brace makes it a head, anything else a declaration, which needs a colon,
or an at-rule without a block.

## Main statements

* `length_rest_readStatement_le`: reading a statement uses up tokens.
-/

namespace StyleBlocks.Sheet

/-- What distinguishes the grammars of the dialects. -/
structure Grammar where
  /-- Whether comments can go to the end of a line. -/
  inlineComments : Bool := false
  /-- Whether a statement without a colon that a semicolon ends is a rule without a block. -/
  bareStatements : Bool := false
deriving DecidableEq, Repr, Inhabited

/-! ### Cutting token lists -/

/-- The number of open parentheses and square brackets after a token, if there are `depth` before
it. -/
def Token.depthAfter (t : Token) (depth : Nat) : Nat :=
  match t.kind with
  | .openParen | .openSquare => depth + 1
  | .closeParen | .closeSquare => depth - 1
  | _ => depth

/-- Whether a token ends a statement when it stands outside parentheses and square brackets. -/
def Token.endsStatement (t : Token) : Bool :=
  match t.kind with
  | .openCurly | .semicolon | .closeCurly => true
  | _ => false

/-- Cuts a list in front of its first token that satisfies `p` outside parentheses and square
brackets, when `depth` of these are open. -/
def cutOutside (p : Token → Bool) (depth : Nat) : List Token → List Token × List Token
  | [] => ([], [])
  | t :: ts =>
    if depth = 0 ∧ p t then ([], t :: ts)
    else
      let cut := cutOutside p (t.depthAfter depth) ts
      (t :: cut.1, cut.2)

/-- Cuts a list in front of the blanks it ends with. -/
def cutBlanks : List Token → List Token × List Token
  | [] => ([], [])
  | t :: ts =>
    match cutBlanks ts with
    | ([], gap) => if t.isSpace then ([], t :: gap) else ([t], gap)
    | (core, gap) => (t :: core, gap)

/-- A list of tokens without the blanks around it, which stand beside it. -/
structure Trimmed where
  /-- The blanks in front; if there are only blanks, they all stand behind. -/
  front : List Token
  /-- The tokens from the first to the last that is not blank. -/
  core : List Token
  /-- The blanks behind. -/
  back : List Token

/-- Splits off the blanks around a list of tokens. -/
def trimBlanks (ts : List Token) : Trimmed where
  front := (cutBlanks ts).1.takeWhile Token.isSpace
  core := (cutBlanks ts).1.dropWhile Token.isSpace
  back := (cutBlanks ts).2

/-- Tokens are what is cut off their front and the rest. -/
theorem cutOutside_append (p : Token → Bool) (depth : Nat) (ts : List Token) :
    (cutOutside p depth ts).1 ++ (cutOutside p depth ts).2 = ts := by
  induction ts generalizing depth with
  | nil => rfl
  | cons t ts ih =>
    by_cases h : depth = 0 ∧ p t
    · simp [cutOutside, h]
    · simpa [cutOutside, h] using ih _

/-- Tokens are the blanks at their front and the rest. -/
theorem cutBlanks_append (ts : List Token) : (cutBlanks ts).1 ++ (cutBlanks ts).2 = ts := by
  induction ts with
  | nil => rfl
  | cons t ts ih =>
    simp only [cutBlanks]
    split
    · next gap h => rw [h] at ih; split <;> simpa using ih
    · next core gap _ h => rw [h] at ih; simpa using ih

/-- Tokens are the blanks at either end and what is between them. -/
theorem trimBlanks_append (ts : List Token) :
    (trimBlanks ts).front ++ (trimBlanks ts).core ++ (trimBlanks ts).back = ts := by
  simp [trimBlanks, List.takeWhile_append_dropWhile, cutBlanks_append]

/-! ### Kinds of statements -/

/-- The head of a block. -/
inductive Head where
  /-- The head of a rule. -/
  | rule (h : RuleHead)
  /-- The head of an at-rule. -/
  | atRule (h : AtRuleHead)

/-- A **statement**. -/
inductive Statement where
  /-- The head of a block, up to its brace, which opens at the given offset. -/
  | opening (head : Head) (start brace : Nat)
  /-- A node without a block; `terminated` tells if a semicolon ends it. -/
  | whole (node : Node) (terminated : Bool)

/-- A statement and the tokens after it. -/
structure Read where
  /-- The statement. -/
  statement : Statement
  /-- The tokens after it. -/
  rest : List Token

/-- What ends a statement or the head of a block. -/
inductive Ending where
  /-- An opening brace. -/
  | brace (t : Token) (rest : List Token)
  /-- A semicolon. -/
  | semicolon (t : Token) (rest : List Token)
  /-- What is not part of the statement: the brace that closes the block around it, or nothing. -/
  | outside (rest : List Token)

/-- What ends a statement, if the given tokens follow it. -/
def Ending.ofTokens : List Token → Ending
  | [] => .outside []
  | t :: ts =>
    match t.kind with
    | .openCurly => .brace t ts
    | .semicolon => .semicolon t ts
    | _ => .outside (t :: ts)

/-- The offset just past the last of some tokens, or `default` if there are none. -/
def stopOf (ts : List Token) (default : Nat) : Nat :=
  (ts.getLast?.map Token.stop).getD default

/-- Reads a comment between marks of two characters in front and `back` characters behind. -/
def readComment (lines : LineMap) (before : Text) (inline : Bool) (back : Nat) (t : Token)
    (ts : List Token) : Read where
  statement := .whole (.comment
    { text := (t.text.drop 2).take (t.text.length - 2 - back)
      inline := inline
      before := some before
      source := some (lines.range t.span) }) false
  rest := ts

/-- Reads the declaration that starts at an offset with the tokens `left` before its colon and
`right` after it. Blanks before its end belong to the declaration if a semicolon ends it, and follow
it otherwise. -/
def readDeclaration (lines : LineMap) (before : Text) (start : Nat) (left : List Token)
    (colon : Token) (right : List Token) (ending : Ending) : Read :=
  let prop := cutBlanks left
  let value := trimBlanks right
  let declaration (front after : List Token) (stop : Nat) : Node :=
    .declaration
      { prop := Token.texts prop.1
        value := Token.texts value.core
        before := some before
        between := some (Token.texts prop.2 ++ colon.text ++ Token.texts front)
        after := some (Token.texts after)
        source := some (lines.range ⟨start, stop⟩) }
  let unterminated (rest : List Token) : Read :=
    ⟨.whole (declaration value.front [] (stopOf value.core colon.stop)) false, value.back ++ rest⟩
  match ending with
  | .semicolon t rest =>
    if value.core.isEmpty then ⟨.whole (declaration value.back [] t.stop) true, rest⟩
    else ⟨.whole (declaration value.front value.back t.stop) true, rest⟩
  | .brace t rest => unterminated (t :: rest)
  | .outside rest => unterminated rest

/-- Reads the at-rule that the token `t` begins, with the tokens `inner` before what ends its head. -/
def readAtRule (lines : LineMap) (before : Text) (t : Token) (inner : List Token)
    (ending : Ending) : Read :=
  let params := trimBlanks inner
  let head (between : List Token) : AtRuleHead :=
    { name := t.text.drop 1
      params := Token.texts params.core
      before := some before
      afterName := some (Token.texts params.front)
      between := some (Token.texts between) }
  let statement (between : List Token) (stop : Nat) : Node :=
    .atStatement { head between with source := some (lines.range ⟨t.start, stop⟩) }
  match ending with
  | .brace u rest => ⟨.opening (.atRule (head params.back)) t.start u.start, rest⟩
  | .semicolon u rest => ⟨.whole (statement params.back u.stop) true, rest⟩
  | .outside rest =>
    ⟨.whole (statement [] (stopOf params.core t.stop)) false, params.back ++ rest⟩

/-- Reads the rule or declaration that the token `t` begins, with the tokens `inner` from it up to
what ends it or its head. -/
def readRuleOrDeclaration (g : Grammar) (lines : LineMap) (before : Text) (t : Token)
    (inner : List Token) (ending : Ending) : Except ParseError Read :=
  let selector := cutBlanks inner
  let rule (mixin : Bool) (source : Option Range) : RuleHead :=
    { selector := Token.texts selector.1
      mixin := mixin
      before := some before
      between := some (Token.texts selector.2)
      source := source }
  match ending with
  | .brace u rest => .ok ⟨.opening (.rule (rule false none)) t.start u.start, rest⟩
  | ending =>
    match cutOutside (fun u => u.kind = .colon) 0 inner with
    | (left, colon :: right) => .ok (readDeclaration lines before t.start left colon right ending)
    | (_, []) =>
      match g.bareStatements, ending with
      | true, .semicolon u rest =>
        .ok ⟨.whole (.rule (rule true (some (lines.range ⟨t.start, u.stop⟩))) []) true, rest⟩
      | _, _ => .error (.unknownWord t.text (lines.position t.start))

/-- Reads the statement that the token `t` begins in front of `ts`; `before` stands in front of it. -/
def readStatement (g : Grammar) (lines : LineMap) (before : Text) (t : Token) (ts : List Token) :
    Except ParseError Read :=
  match t.kind with
  | .comment => .ok (readComment lines before false 2 t ts)
  | .atWord =>
    let cut := cutOutside Token.endsStatement 0 ts
    .ok (readAtRule lines before t cut.1 (.ofTokens cut.2))
  | kind =>
    if kind = .lineComment ∧ g.inlineComments then .ok (readComment lines before true 0 t ts)
    else
      let cut := cutOutside Token.endsStatement 0 (t :: ts)
      readRuleOrDeclaration g lines before t cut.1 (.ofTokens cut.2)

/-! ### Tokens used up -/

/-- The tokens from an ending on. -/
def Ending.tokens : Ending → List Token
  | brace t rest | semicolon t rest => t :: rest
  | outside rest => rest

/-- What ends a statement is the tokens at its end. -/
@[simp] theorem Ending.tokens_ofTokens (ts : List Token) : (Ending.ofTokens ts).tokens = ts := by
  cases ts with
  | nil => rfl
  | cons t ts => simp only [ofTokens]; split <;> rfl

/-- There are no more blanks at the end of tokens than there are tokens. -/
theorem length_back_trimBlanks_le (ts : List Token) :
    (trimBlanks ts).back.length ≤ ts.length := by
  have h := congrArg List.length (trimBlanks_append ts)
  simp only [List.length_append] at h
  omega

/-- A declaration leaves no more tokens than are behind its colon. -/
theorem length_rest_readDeclaration_le (lines : LineMap) (before : Text) (start : Nat)
    (left : List Token) (colon : Token) (right : List Token) (ending : Ending) :
    (readDeclaration lines before start left colon right ending).rest.length
      ≤ right.length + ending.tokens.length := by
  have := length_back_trimBlanks_le right
  cases ending with
  | semicolon t rest =>
    simp only [readDeclaration, Ending.tokens]
    split <;> (simp only [List.length_cons]; omega)
  | brace t rest | outside rest =>
    simp only [readDeclaration, Ending.tokens, List.length_append]
    omega

/-- An at-rule leaves no more tokens than are behind its name. -/
theorem length_rest_readAtRule_le (lines : LineMap) (before : Text) (t : Token)
    (inner : List Token) (ending : Ending) :
    (readAtRule lines before t inner ending).rest.length
      ≤ inner.length + ending.tokens.length := by
  have := length_back_trimBlanks_le inner
  cases ending <;>
    simp only [readAtRule, Ending.tokens, List.length_cons, List.length_append] <;> omega

/-- A rule or declaration leaves fewer tokens to read. -/
theorem length_rest_readRuleOrDeclaration_lt {g : Grammar} {lines : LineMap} {before : Text}
    {t : Token} {inner : List Token} {ending : Ending} {r : Read}
    (h : readRuleOrDeclaration g lines before t inner ending = .ok r) :
    r.rest.length < inner.length + ending.tokens.length := by
  have hcut := congrArg List.length (cutOutside_append (fun u => u.kind = .colon) 0 inner)
  simp only [List.length_append] at hcut
  cases ending with
  | brace u rest =>
    simp only [readRuleOrDeclaration, Except.ok.injEq] at h
    subst h
    simp only [Ending.tokens, List.length_cons]
    omega
  | semicolon u rest =>
    simp only [readRuleOrDeclaration] at h
    split at h
    · next left colon right hc =>
      have := length_rest_readDeclaration_le lines before t.start left colon right
        (.semicolon u rest)
      simp only [hc, List.length_cons] at hcut
      cases h
      omega
    · split at h
      · cases h
        next hs => cases hs; simp only [Ending.tokens, List.length_cons]; omega
      · contradiction
  | outside rest =>
    simp only [readRuleOrDeclaration] at h
    split at h
    · next left colon right hc =>
      have := length_rest_readDeclaration_le lines before t.start left colon right (.outside rest)
      simp only [hc, List.length_cons] at hcut
      cases h
      omega
    · split at h
      · next hs => cases hs
      · contradiction

/-- A statement uses up the token that begins it, and perhaps more. -/
theorem length_rest_readStatement_le {g : Grammar} {lines : LineMap} {before : Text} {t : Token}
    {ts : List Token} {r : Read} (h : readStatement g lines before t ts = .ok r) :
    r.rest.length ≤ ts.length := by
  simp only [readStatement] at h
  split at h
  · cases h; simp [readComment]
  · cases h
    have hle := length_rest_readAtRule_le lines before t (cutOutside Token.endsStatement 0 ts).1
      (.ofTokens (cutOutside Token.endsStatement 0 ts).2)
    have hcut := congrArg List.length (cutOutside_append Token.endsStatement 0 ts)
    rw [Ending.tokens_ofTokens] at hle
    simp only [List.length_append] at hcut
    omega
  · split at h
    · cases h; simp [readComment]
    · have hlt := length_rest_readRuleOrDeclaration_lt h
      have hcut := congrArg List.length (cutOutside_append Token.endsStatement 0 (t :: ts))
      rw [Ending.tokens_ofTokens] at hlt
      simp only [List.length_append, List.length_cons] at hcut
      omega

end StyleBlocks.Sheet
