import StyleBlocks.Yaml.Token

/-!
# The layout of YAML texts

Indentation opens and closes block collections: a collection stands at the column of its entries, and
what stands left of that column closes it. Between brackets and braces indentation means nothing. A key
without a question mark shows only when the colon after it is read.

`tokens?` gives all the tokens of a text, with those for what the layout says. A **layout** holds the
tokens so far and, for every open bracket or brace, what may turn out to be a key; if a colon follows,
the token that says so is put in front of it. Brackets and braces are only counted here, and whether
they match is left to the reader of the tokens.
-/

namespace StyleBlocks.Yaml

/-- What may turn out to be a key. -/
structure PossibleKey where
  /-- How many tokens stand in front of it. -/
  position : Nat
  /-- The place where it starts. -/
  place : Place
  /-- Whether nothing but a key can stand there. -/
  required : Bool

/-- Whether it is a key if a colon follows in front of `rest`. A key stands on one line and has no more
than 1024 bytes. -/
def PossibleKey.endsAt (rest : Text) (k : PossibleKey) : Bool :=
  let written := k.place.rest.take (k.place.rest.length - rest.length)
  Text.byteSize written ≤ 1024 && !(written.any isBreak)

/-- The layout of a text up to a place. -/
structure Layout where
  /-- The tokens. -/
  tokens : Array Token := #[]
  /-- The columns of the open block collections, innermost first. -/
  columns : List Nat := []
  /-- What may turn out to be a key, if it stands between the innermost brackets or braces. -/
  possible : Option PossibleKey := none
  /-- What may turn out to be a key around each of the open brackets and braces, innermost first. -/
  outer : List (Option PossibleKey) := []

namespace Layout

/-- Whether a bracket or brace is open. -/
def inFlow (l : Layout) : Bool :=
  !l.outer.isEmpty

/-- The least column at which what belongs to the innermost block collection can start. -/
def least (l : Layout) : Nat :=
  match l.columns with
  | c :: _ => c + 1
  | [] => 0

/-- Adds a token. -/
def push (k : Token) (l : Layout) : Layout :=
  { l with tokens := l.tokens.push k }

/-- Adds a token in front of which the given number of tokens stands. -/
def insert (position : Nat) (k : Token) (l : Layout) : Layout :=
  { l with tokens := l.tokens.insertIdxIfInBounds position k }

/-- Closes the block collections whose entries start at a column or further right. -/
def unindent (column : Nat) (l : Layout) : Layout :=
  if l.inFlow then l
  else
    { l with
      tokens := l.tokens ++ (l.columns.takeWhile (column ≤ ·)).map fun _ => Token.endBlock
      columns := l.columns.dropWhile (column ≤ ·) }

/-- Opens a block collection whose first entry starts at a column, in front of the token at a position,
unless a collection with entries at that column is open. -/
def indent (column position : Nat) (k : Token) (l : Layout) : Layout :=
  if !l.inFlow ∧ l.least ≤ column then
    { l.insert position k with columns := column :: l.columns }
  else l

/-- Gives up what might have been a key. -/
def drop? (l : Layout) : Option Layout :=
  if l.possible.any (·.required) then none else some { l with possible := none }

/-- Adds a token that can be the start of a key. At the column of the entries of a block mapping nothing
else can stand. -/
def offer? (p : Place) (k : Token) (l : Layout) : Option Layout :=
  if p.fresh then do
    let l ← l.drop?
    let key : PossibleKey := ⟨l.tokens.size, p, !l.inFlow && l.columns.head? == some p.column⟩
    return { l.push k with possible := some key }
  else some (l.push k)

/-- Adds a token that begins an entry of a block collection that `opening` opens, unless a bracket or
brace is open. -/
def entry? (p : Place) (opening k : Token) (l : Layout) : Option Layout :=
  if l.inFlow ∨ p.fresh then l.drop?.map fun l => (l.indent p.column l.tokens.size opening).push k
  else none

/-- Adds a colon after a key. -/
def endKey (k : PossibleKey) (l : Layout) : Layout :=
  let l := (l.insert k.position .key).indent k.place.column k.position .beginMapping
  { l with possible := none }.push .value

/-- Adds an opening bracket or brace. -/
def openFlow? (p : Place) (k : Token) (l : Layout) : Option Layout :=
  (l.offer? p k).map fun l => { l with possible := none, outer := l.possible :: l.outer }

/-- Adds a closing bracket or brace. -/
def closeFlow? (k : Token) (l : Layout) : Option Layout :=
  l.drop?.map fun l =>
    match l.outer with
    | [] => l.push k
    | o :: os => { l with possible := o, outer := os }.push k

/-- The key that a colon in front of `rest` ends. -/
def keyAt? (rest : Text) (l : Layout) : Option PossibleKey :=
  l.possible.filter (·.endsAt rest)

/-- Adds a token that stands at a place, given the key that it ends if it is a colon. -/
def add? (p : Place) (ended : Option PossibleKey) (l : Layout) (k : Token) : Option Layout :=
  match k with
  | .start | .stop | .version .. | .handle .. => ((l.unindent 0).drop?).map (push k)
  | .dash => l.entry? p .beginSequence k
  | .key => l.entry? p .beginMapping k
  | .value =>
    match ended with
    | some e => some (l.endKey e)
    | none => l.entry? p .beginMapping k
  | .comma | .lines _ => l.drop?.map (push k)
  | .openSequence | .openMapping => l.openFlow? p k
  | .closeSequence | .closeMapping => l.closeFlow? k
  | .anchor _ | .alias _ | .tag _ | .scalar .. => l.offer? p k
  | .beginSequence | .beginMapping | .endBlock => some (l.push k)

/-- Goes on from a place to the end. -/
def readFrom? (l : Layout) (p : Place) : Option Layout :=
  let q := skipBlanks l.inFlow false p.column p.fresh p.rest
  match hq : q.rest with
  | [] => (l.unindent 0).drop?
  | c :: t =>
    let l := l.unindent (q.column + 1)
    let ended := if c = ':' then l.keyAt? (c :: t) else none
    match hk : token? l.inFlow l.least ended.isSome q.column c t with
    | none => none
    | some (k, r) =>
      have : r.rest.length < p.rest.length := by
        have hs : q.rest.length ≤ p.rest.length := length_rest_skipBlanks_le ..
        rw [hq] at hs
        exact Nat.lt_of_le_of_lt (length_rest_token?_le hk) hs
      match l.add? q ended k with
      | none => none
      | some l => readFrom? l r
termination_by p.rest.length

end Layout

/-- The tokens of a text whose line breaks are of one kind. -/
def tokens? (t : Text) : Option (List Token) :=
  (Layout.readFrom? {} { rest := t }).map (·.tokens.toList)

end StyleBlocks.Yaml
