import StyleBlocks.Yaml.Draft
import StyleBlocks.Yaml.Layout

/-!
# Reading YAML

`Yaml.read?` reads a text with one document: the layout of the text gives the tokens, from which the
document is put together. A text that breaks the rules of YAML, or has a second document, denotes no
value.
-/

namespace StyleBlocks.Yaml

/-- Whether a token stands between documents and not in one. -/
def Token.isOutside : Token → Bool
  | start | stop | version .. | handle .. => true
  | _ => false

/-- What the directives at the start of the tokens say handles are short for, and the tokens after them;
`versioned` tells if the version is known. -/
def directives? (versioned : Bool) (handles : List (Text × Text)) :
    List Token → Option (List (Text × Text) × List Token)
  | .version major minor :: ts =>
    if !versioned ∧ major = 1 ∧ (minor = 1 ∨ minor = 2) then directives? true handles ts else none
  | .handle handle expansion :: ts =>
    if (handles.lookup handle).isNone then
      directives? versioned ((handle, expansion) :: handles) ts
    else none
  | ts => some (handles, ts)

/-- The value that tokens denote. A document needs no mark of its start unless there are directives, and
no mark of its end. It can be empty, but then the mark of its end needs the one of its start. -/
def ofTokens? (ts : List Token) : Option Yaml := do
  let (handles, body) ← directives? false [] ts
  let marked := body.head? = some .start
  guard (marked ∨ body.length = ts.length)
  let (content, rest) := (if marked then body.tail else body).span (!·.isOutside)
  guard (rest.all (· == .stop))
  if content.isEmpty then
    guard (marked ∨ rest.isEmpty)
    return nothing
  else
    (← content.foldlM Draft.step? { handles := handles }).finish?

/-- The value that a YAML text denotes. -/
def read? (t : Text) : Option Yaml := do
  guard (t.all isPrintable)
  ofTokens? (← tokens? (unifyBreaks t))

end StyleBlocks.Yaml
