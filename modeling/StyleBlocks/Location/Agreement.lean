import StyleBlocks.Location.LineMap

/-!
# Agreement of spans and positions

A range names a part of a text twice, by its span and by its positions. The range is right only if both
name the same part. `Range.firstFault?` tests this and, after it, whatever else is expected of a range.
-/

namespace StyleBlocks

namespace Range

/-- The part of a text that the span names; nothing if it names none. -/
def textBySpan (r : Range) (t : Text) : Text :=
  (r.span.of? t).getD []

/-- The part of a text that the positions name, if they do. -/
def textByPositions? (r : Range) (t : Text) : Option Text := do
  let lines := LineMap.ofText t
  let start ← lines.offset? r.start
  let stop ← lines.offset? r.stop
  Text.slice? start stop t

/-- Whether span and positions name the same part of a text. -/
def Agrees (r : Range) (t : Text) : Prop :=
  r.textByPositions? t = some (r.textBySpan t)

instance (r : Range) (t : Text) : Decidable (r.Agrees t) :=
  inferInstanceAs (Decidable (_ = _))

/-- What is expected of a range; what is missing is not tested. -/
structure Expectation where
  /-- The text under it. -/
  text : Option Text := none
  /-- Where it starts. -/
  start : Option Position := none
  /-- Where it ends. -/
  stop : Option Position := none

/-- What is wrong with a range. -/
inductive Fault where
  /-- Its span and its positions name different parts of the text. -/
  | disagreement
  /-- The text under it is not the expected one. -/
  | text
  /-- It starts elsewhere. -/
  | start
  /-- It ends elsewhere. -/
  | stop
deriving DecidableEq, Repr

/-- The first thing that is wrong with a range in a text, if anything is. -/
def firstFault? (r : Range) (t : Text) (e : Expectation) : Option Fault :=
  if ¬ r.Agrees t then some .disagreement
  else if e.text.any (· ≠ r.textBySpan t) then some .text
  else if e.start.any (· ≠ r.start) then some .start
  else if e.stop.any (· ≠ r.stop) then some .stop
  else none

end Range

end StyleBlocks
