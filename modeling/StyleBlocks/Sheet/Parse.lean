import StyleBlocks.Sheet.Statement

/-!
# Parsing style sheets

A style sheet is parsed in one pass over its tokens, with a stack of the blocks that are open. Every
byte ends up in exactly one place: in a text of a node, in one of its raws, or at the end of the
block or style sheet around it. Semicolons that end nothing count as blanks.
-/

namespace StyleBlocks.Sheet

/-- What has been read of the block, or of the style sheet, that is being read. -/
structure Body where
  /-- The nodes, newest first. -/
  nodes : List Node := []
  /-- The blanks and stray semicolons after the newest node. -/
  pending : Text := []
  /-- Whether the newest node ends in a semicolon. -/
  semicolon : Bool := false

/-- A block whose closing brace has not been read. -/
structure OpenBlock where
  /-- Its head. -/
  head : Head
  /-- The offset at which the head starts. -/
  start : Nat
  /-- The offset of the opening brace. -/
  brace : Nat
  /-- The nodes in front of it in what is around it, newest first. -/
  siblings : List Node

/-- The node that a block becomes when its body is complete and its brace closes at the offset
`stop`. -/
def OpenBlock.close (b : OpenBlock) (lines : LineMap) (body : Body) (stop : Nat) : Node :=
  let source := some (lines.range ⟨b.start, stop⟩)
  let after := some body.pending
  match b.head with
  | .rule h =>
    .rule { h with after := after, semicolon := body.semicolon, source := source } body.nodes.reverse
  | .atRule h =>
    .atRule { h with after := after, semicolon := body.semicolon, source := source }
      body.nodes.reverse

/-- How far parsing has come. -/
structure Parse where
  /-- What has been read of the innermost block. -/
  body : Body := {}
  /-- The open blocks, innermost first. -/
  blocks : List OpenBlock := []

/-- Adds a node to the innermost block. -/
def Parse.push (n : Node) (terminated : Bool) (p : Parse) : Parse :=
  { p with body := { nodes := n :: p.body.nodes, semicolon := terminated } }

/-- Acts on the statement that has been read at the innermost block. -/
def Parse.accept (s : Statement) (p : Parse) : Parse :=
  match s with
  | .whole n terminated => p.push n terminated
  | .opening head start brace =>
    { body := {}, blocks := ⟨head, start, brace, p.body.nodes⟩ :: p.blocks }

/-- Reads a blank, a stray semicolon, a closing brace or a statement, whichever the token `t` begins
in front of `ts`. -/
def Parse.step (g : Grammar) (lines : LineMap) (p : Parse) (t : Token) (ts : List Token) :
    Except ParseError (Parse × List Token) :=
  match t.kind with
  | .space | .semicolon =>
    .ok ({ p with body := { p.body with pending := p.body.pending ++ t.text } }, ts)
  | .closeCurly =>
    match p.blocks with
    | [] => .error (.unexpectedClose (lines.position t.start))
    | b :: bs =>
      let node := b.close lines p.body t.stop
      .ok (Parse.push node false { body := { nodes := b.siblings }, blocks := bs }, ts)
  | _ =>
    (readStatement g lines p.body.pending t ts).map fun r => (p.accept r.statement, r.rest)

/-- A step of the parser leaves no more tokens than are behind the one it is at. -/
theorem Parse.length_snd_step_le {g : Grammar} {lines : LineMap} {p : Parse} {t : Token}
    {ts : List Token} {q : Parse × List Token} (h : p.step g lines t ts = .ok q) :
    q.2.length ≤ ts.length := by
  rw [step] at h
  split at h
  · cases h; simp
  · cases h; simp
  · split at h
    · contradiction
    · cases h; simp
  · cases hr : readStatement g lines p.body.pending t ts with
    | error e => simp [hr, Except.map] at h
    | ok r =>
      simp only [hr, Except.map, Except.ok.injEq] at h
      subst h
      exact length_rest_readStatement_le hr

/-- Reads all the tokens that are left and returns the body of the style sheet. -/
def Parse.run (g : Grammar) (lines : LineMap) (p : Parse) : List Token → Except ParseError Body
  | [] =>
    match p.blocks with
    | [] => .ok p.body
    | b :: _ => .error (.unclosedBlock (lines.position b.brace))
  | t :: ts =>
    match h : p.step g lines t ts with
    | .error e => .error e
    | .ok q =>
      have := length_snd_step_le h
      Parse.run g lines q.1 q.2
termination_by ts => ts.length

/-- Reading tokens is reading what the first of them begins, and then the rest. -/
theorem Parse.run_cons (g : Grammar) (lines : LineMap) (p : Parse) (t : Token) (ts : List Token) :
    p.run g lines (t :: ts) = (p.step g lines t ts).bind fun q => q.1.run g lines q.2 := by
  rw [Parse.run]
  split <;> simp_all [Except.bind]

/-- The style sheet that a text denotes in a grammar. -/
def parse (g : Grammar) (t : Text) : Except ParseError Root := do
  let tokens ← Token.tokenize t
  let lines := LineMap.ofText t
  let body ← Parse.run g lines {} tokens
  return {
    nodes := body.nodes.reverse
    after := some body.pending
    semicolon := body.semicolon
    source := some (lines.range ⟨0, Text.byteSize t⟩) }

end StyleBlocks.Sheet
