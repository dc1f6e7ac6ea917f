import StyleBlocks.Text.Basic

/-!
# YAML values

The values that settings written in YAML are made of, and the classes of characters that YAML tells
apart.

A value can stand in more than one place of a document: where it has an anchor, and at every alias of
that anchor. Anchors have numbers, and of the values with one number the one that begins last is what
aliases with that number stand for. It may hold such an alias itself, so aliases are looked up when they
are read, and not replaced.
-/

namespace StyleBlocks

/-- A **YAML value**. Scalars are kept as texts, for what they stand for depends on who reads them. -/
inductive Yaml where
  /-- A scalar with its tag, and whether it was written without quotes or block indicators. -/
  | scalar (plain : Bool) (tag : Option Text) (text : Text)
  /-- A sequence. -/
  | sequence (items : List Yaml)
  /-- A mapping, by its entries in order. -/
  | mapping (entries : List (Yaml × Yaml))
  /-- A value with an anchor, by the number of the anchor. -/
  | anchored (number : Nat) (v : Yaml)
  /-- An alias, by the number of the anchor. -/
  | alias (number : Nat)
deriving Inhabited

namespace Yaml

/-- What stands where a value is due and nothing is written. -/
def nothing : Yaml :=
  scalar true none []

/-- A value with an anchor, if the anchor has a number. -/
def withAnchor : Option Nat → Yaml → Yaml
  | some n, v => anchored n v
  | none, v => v

/-! ### Anchors -/

mutual

/-- The values with anchors in a value, by the numbers of these, in the order in which they begin. -/
def targets : Yaml → List (Nat × Yaml)
  | .scalar .. | .alias _ => []
  | .sequence items => targetsOfItems items
  | .mapping entries => targetsOfEntries entries
  | .anchored n v => (n, v) :: v.targets

/-- The values with anchors in the items of a sequence. -/
def targetsOfItems : List Yaml → List (Nat × Yaml)
  | [] => []
  | v :: vs => v.targets ++ targetsOfItems vs

/-- The values with anchors in the entries of a mapping. -/
def targetsOfEntries : List (Yaml × Yaml) → List (Nat × Yaml)
  | [] => []
  | (k, v) :: es => k.targets ++ v.targets ++ targetsOfEntries es

end

/-- What aliases in a document stand for: values by numbers, of which the first counts. -/
abbrev Anchors :=
  List (Nat × Yaml)

/-- The anchors in a value; a value that begins later comes first. -/
def anchors (v : Yaml) : Anchors :=
  v.targets.reverse

/-- What stands behind an alias or an anchor. -/
def resolve? (anchors : Anchors) : Yaml → Option Yaml
  | .alias n => anchors.lookup n
  | .anchored _ v => some v
  | v => some v

/-! ### Characters -/

/-- Characters that can be written in a YAML text. -/
def isPrintable (c : Char) : Bool :=
  c == '\t' || c == '\n' || c == '\r' || (' ' ≤ c && c ≤ '~') || c == '\u0085' ||
  ('\u00a0' ≤ c && c ≤ '\ufffd') || '\ufffd'.toNat + 2 < c.toNat

/-- Spaces and tabs. -/
def isSpace (c : Char) : Bool :=
  c == ' ' || c == '\t'

/-- Characters that break a line, when all line breaks of one kind have been made line feeds. -/
def isBreak (c : Char) : Bool :=
  c == '\n' || c == '\u2028' || c == '\u2029'

/-- A text with a line feed for each carriage return, with or without a line feed after it, and for
each next-line character. -/
def unifyBreaks : Text → Text
  | '\r' :: '\n' :: t => '\n' :: unifyBreaks t
  | c :: t => (if c = '\r' ∨ c = '\u0085' then '\n' else c) :: unifyBreaks t
  | [] => []

/-- Whether a text starts with a blank or is at its end. -/
def startsBlank (t : Text) : Bool :=
  t.head?.all fun c => isSpace c || isBreak c

/-- Whether a text starts with the mark of the start or of the end of a document. -/
def startsMarker : Text → Bool
  | '-' :: '-' :: '-' :: t => startsBlank t
  | '.' :: '.' :: '.' :: t => startsBlank t
  | _ => false

end Yaml

end StyleBlocks
