import StyleBlocks.Template.Basic
import StyleBlocks.Template.Lexeme

/-!
# Nesting

While host code is read from left to right, what is open at each moment forms a stack of **levels**:
the program as a whole at the bottom, and above it one level for every open parenthesis, bracket,
brace and hole. Each level keeps track of the **statement** that is open in it. Beside the stack
stands the **chain**, the expression read up to now that could be the tag of a template.

`Nesting` holds all of this, and its operations say what each lexeme does to it.
-/

namespace StyleBlocks.Template

/-- A **chain**: the expression just read, which is the tag of a template that follows it. -/
structure Chain where
  /-- The expression. -/
  tag : Tag
  /-- The offset at which it starts. -/
  start : Nat
deriving DecidableEq, Repr

/-- Applies a function to the expression of a chain. -/
def Chain.mapTag (f : Tag → Tag) (c : Chain) : Chain :=
  { c with tag := f c.tag }

/-! ### Statements -/

/-- What is known of the current statement of a level. -/
structure Statement where
  /-- The line comments since the last statement ended. -/
  pending : List Text := []
  /-- The line comments that lead the open statement. -/
  leading : List Text := []
  /-- Whether a statement is open. -/
  isOpen : Bool := false
  /-- Whether a line broke after an expression, so that the next lexeme tells if the statement goes
  on. -/
  mayHaveEnded : Bool := false
  /-- Whether the last lexeme can end an expression. -/
  endsExpression : Bool := false
deriving DecidableEq, Repr, Inhabited

namespace Statement

/-- Ends the statement. -/
def finish (s : Statement) : Statement :=
  { s with isOpen := false, mayHaveEnded := false, leading := [] }

/-- Opens a statement if none is open; the pending comments lead it. -/
def start (s : Statement) : Statement :=
  if s.isOpen then s else { s with isOpen := true, leading := s.pending, pending := [] }

/-- Takes note of a lexeme that is not trivia, before it is acted on. If the statement may have
ended, a lexeme that carries it on drops the comments in between, and any other one ends it. -/
def meet (k : LexemeKind) (s : Statement) : Statement :=
  start <|
    if s.mayHaveEnded then
      if k.continuesStatement then { s with mayHaveEnded := false, pending := [] }
      else finish { s with mayHaveEnded := false }
    else s

/-- Takes note of a line break. -/
def breakLine (s : Statement) : Statement :=
  if s.isOpen && s.endsExpression then { s with mayHaveEnded := true } else s

/-- Takes note of a line comment; inside a statement it leads nothing. -/
def comment (text : Text) (s : Statement) : Statement :=
  if !s.isOpen || s.mayHaveEnded then { s with pending := s.pending ++ [text] } else s

end Statement

/-! ### Levels -/

/-- A template whose closing backtick has not been read. -/
structure Unclosed where
  /-- The chain in front of the template, its tag. -/
  chain : Option Chain
  /-- The offset of the opening backtick. -/
  opening : Nat
  /-- The comments that lead the statements around the template. -/
  leadingComments : List Text
  /-- The literal parts read. -/
  quasis : List Quasi := []
  /-- The holes read. -/
  holes : List Hole := []
deriving DecidableEq, Repr

/-- The template that an unclosed one with a tag becomes when it ends at the offset `stop`. -/
def Unclosed.close? (u : Unclosed) (stop : Nat) : Option Tagged :=
  u.chain.map fun c =>
    { tag := c.tag
      span := ⟨c.start, stop⟩
      quasis := u.quasis
      holes := u.holes
      leadingComments := u.leadingComments }

/-- What opened a level. -/
inductive Opener where
  /-- A parenthesis, after the chain that it calls. -/
  | paren (callee : Option Chain)
  /-- A square bracket, after the chain that it looks into. -/
  | bracket (object : Option Chain)
  /-- A brace. -/
  | brace
  /-- The hole of a template whose expression starts at the given offset. -/
  | hole (template : Unclosed) (start : Nat)
deriving DecidableEq, Repr

/-- A **level** above the bottom of the stack. -/
structure Level where
  /-- What opened it. -/
  opener : Opener
  /-- Its current statement. -/
  statement : Statement := {}
deriving DecidableEq, Repr

/-! ### The state of reading -/

/-- The **nesting** at a place in host code. -/
structure Nesting where
  /-- The current statement of the program as a whole. -/
  base : Statement := {}
  /-- The open levels, innermost first. -/
  levels : List Level := []
  /-- The chain that ends at this place. -/
  chain : Option Chain := none
  /-- Whether a dot follows the chain. -/
  afterDot : Bool := false
  /-- Whether a slash at this place starts a regular expression. -/
  regexAllowed : Bool := true
  /-- The templates closed so far. -/
  closed : List Tagged := []
deriving DecidableEq, Repr

namespace Nesting

/-- The words after which a slash starts a regular expression. -/
def regexWords : List Text :=
  ["return", "typeof", "instanceof", "in", "of", "new", "delete", "void", "throw", "case", "do",
    "else", "yield", "await"].map String.toList

/-- The current statement of the innermost level. -/
def statement (n : Nesting) : Statement :=
  match n.levels with
  | [] => n.base
  | l :: _ => l.statement

/-- Applies a function to the current statement of the innermost level. -/
def modifyStatement (f : Statement → Statement) (n : Nesting) : Nesting :=
  match n.levels with
  | [] => { n with base := f n.base }
  | l :: ls => { n with levels := { l with statement := f l.statement } :: ls }

/-- Whether line breaks can end statements at the innermost level: they can at the bottom and
between braces. -/
def breaksEndStatements (n : Nesting) : Bool :=
  match n.levels with
  | [] => true
  | l :: _ => l.opener = .brace

/-- Forgets the chain. -/
def dropChain (n : Nesting) : Nesting :=
  { n with chain := none, afterDot := false }

/-- Opens a level. -/
def openLevel (o : Opener) (n : Nesting) : Nesting :=
  { n.dropChain with levels := { opener := o } :: n.levels }

/-- Takes note of a line break. -/
def breakLine (n : Nesting) : Nesting :=
  if n.breaksEndStatements then n.modifyStatement Statement.breakLine else n

/-- Reads a name at the given offset: after a dot it is a property of the chain, else it starts a
chain of its own. -/
def identifier (name : Text) (offset : Nat) (n : Nesting) : Nesting :=
  let chain := match n.chain, n.afterDot with
    | some c, true => c.mapTag (.member · name)
    | _, _ => ⟨.identifier name, offset⟩
  { n with chain := some chain, afterDot := false }

/-- Reads a private name, which is nothing but a property. -/
def privateName (name : Text) (n : Nesting) : Nesting :=
  let chain := match n.chain, n.afterDot with
    | some c, true => some (c.mapTag (.member · name))
    | _, _ => none
  { n with chain := chain, afterDot := false }

/-- Reads a closing parenthesis, bracket or brace. It closes the innermost level if that was opened
by its counterpart and changes nothing otherwise. A brace that closes a hole is no matter of this
function. -/
def closeLevel (k : LexemeKind) (n : Nesting) : Nesting :=
  match n.levels with
  | [] => n
  | l :: ls =>
    match k, l.opener with
    | .closeParen, .paren c =>
      { n with levels := ls, chain := c.map (Chain.mapTag .call), afterDot := false }
    | .closeBracket, .bracket c =>
      { n with levels := ls, chain := c.map (Chain.mapTag .computed), afterDot := false }
    | .closeBrace, .brace => { n with levels := ls, chain := none, afterDot := false }
    | _, _ => n

/-- Takes note of a lexeme after it has been acted on. -/
def settle (k : LexemeKind) (text : Text) (n : Nesting) : Nesting :=
  let regexAllowed := match k with
    | .identifier => regexWords.contains text
    | .semicolon | .comma => true
    | k => !k.endsExpression
  let n := { n with regexAllowed := regexAllowed }
  match k with
  | .semicolon | .comma => n
  | k => n.modifyStatement fun s => { s with endsExpression := k.endsExpression }

/-- The comments that lead the open statements, those of outer levels first. -/
def leadingComments (n : Nesting) : List Text :=
  n.base.leading ++ n.levels.reverse.flatMap fun l => l.statement.leading

/-- The template around the innermost hole. -/
def innermost? (n : Nesting) : Option Unclosed :=
  n.levels.findSome? fun l =>
    match l.opener with
    | .hole u _ => some u
    | _ => none

/-- Closes a template at the offset `stop`; it is kept if it has a tag. -/
def closeTemplate (u : Unclosed) (stop : Nat) (n : Nesting) : Nesting :=
  settle .backtick [] { n.dropChain with closed := n.closed ++ (u.close? stop).toList }

/-- Opens the next hole of a template at the offset `start` of its expression. -/
def openHole (u : Unclosed) (start : Nat) (n : Nesting) : Nesting :=
  { n.openLevel (.hole u start) with regexAllowed := true }

end Nesting

end StyleBlocks.Template
