import StyleBlocks.Location.Basic
import StyleBlocks.Text.Blank

/-!
# Style sheets as trees

The tree of a style sheet has four kinds of nodes: rules, at-rules with or without a block,
declarations and comments. Their texts are kept exactly as written, and what stands between the texts
is kept beside them as **raws**, so that a tree holds every byte of the text it was parsed from. A
node built by hand may lack raws.

A node can also carry **corrections** of its texts, each of which replaces a text in print for as long
as the text is the one that the correction was made for.
-/

namespace StyleBlocks.Sheet

/-! ### Corrections -/

/-- The names of the texts of a node that can be replaced in print. -/
inductive RawKey where
  /-- What stands in front of the node. -/
  | before
  /-- What stands between the two halves of the node. -/
  | between
  /-- What stands at the end of the node. -/
  | after
  /-- What stands after the name of an at-rule. -/
  | afterName
  /-- The property of a declaration. -/
  | prop
  /-- The selector, the parameters, the value or the text of a comment. -/
  | value
deriving DecidableEq, Repr

/-- All raw keys, in their order. -/
def RawKey.all : List RawKey :=
  [before, between, after, afterName, prop, value]

/-- A **correction**: a text and what is printed in its place. -/
structure Correction where
  /-- The text that is replaced. -/
  original : Text
  /-- What replaces it. -/
  corrected : Text
deriving DecidableEq, Repr

/-- The corrections of a node, at most one for each raw key. -/
structure Corrections where
  /-- The correction for a key. -/
  find? : RawKey → Option Correction

namespace Corrections

/-- No corrections. -/
instance : EmptyCollection Corrections := ⟨⟨fun _ => none⟩⟩

/-- Sets the correction for a key. -/
def insert (key : RawKey) (c : Correction) (cs : Corrections) : Corrections where
  find? k := if k = key then some c else cs.find? k

/-- What to print for a key whose text is `current`, if the correction for it still holds. -/
def get? (cs : Corrections) (key : RawKey) (current : Text) : Option Text :=
  match cs.find? key with
  | some c => if c.original = current then some c.corrected else none
  | none => none

/-- The corrections in the order of their keys. -/
def toList (cs : Corrections) : List (RawKey × Correction) :=
  RawKey.all.filterMap fun k => (cs.find? k).map (k, ·)

/-- The number of corrections. -/
def size (cs : Corrections) : Nat :=
  cs.toList.length

@[simp] theorem find?_empty (k : RawKey) : (∅ : Corrections).find? k = none := rfl

/-- A correction is found by its own name and hides no other one. -/
@[simp] theorem find?_insert (key k : RawKey) (c : Correction) (cs : Corrections) :
    (cs.insert key c).find? k = if k = key then some c else cs.find? k := rfl

end Corrections

/-! ### Nodes -/

/-- What a rule has besides its block. A rule without a block is a **mixin**. -/
structure RuleHead where
  /-- The selector. -/
  selector : Text := []
  /-- Whether the rule is a mixin. -/
  mixin : Bool := false
  /-- What stands in front of the rule. -/
  before : Option Text := none
  /-- What stands between the selector and the brace. -/
  between : Option Text := none
  /-- What stands between the last node of the block and the closing brace. -/
  after : Option Text := none
  /-- Whether the last node of the block ends in a semicolon. -/
  semicolon : Bool := false
  /-- Where the rule stands. -/
  source : Option Range := none
  /-- The corrections of its texts. -/
  corrections : Corrections := ∅

/-- What an at-rule has besides its block. -/
structure AtRuleHead where
  /-- The name, without the at sign. -/
  name : Text := []
  /-- What the rule is about. -/
  params : Text := []
  /-- What stands in front of the rule. -/
  before : Option Text := none
  /-- What stands between the name and the parameters. -/
  afterName : Option Text := none
  /-- What stands between the parameters and the brace or the semicolon. -/
  between : Option Text := none
  /-- What stands between the last node of the block and the closing brace. -/
  after : Option Text := none
  /-- Whether the last node of the block ends in a semicolon. -/
  semicolon : Bool := false
  /-- Where the rule stands. -/
  source : Option Range := none
  /-- The corrections of its texts. -/
  corrections : Corrections := ∅

/-- A declaration. -/
structure Declaration where
  /-- The property. -/
  prop : Text := []
  /-- The value. -/
  value : Text := []
  /-- What stands in front of the declaration. -/
  before : Option Text := none
  /-- What stands between property and value, the colon included. -/
  between : Option Text := none
  /-- What stands between the value and the semicolon. -/
  after : Option Text := none
  /-- Where the declaration stands. -/
  source : Option Range := none
  /-- The corrections of its texts. -/
  corrections : Corrections := ∅

/-- A comment. -/
structure Comment where
  /-- What is between the marks of the comment. -/
  text : Text := []
  /-- Whether the comment goes to the end of its line. -/
  inline : Bool := false
  /-- What stands in front of the comment. -/
  before : Option Text := none
  /-- Where the comment stands. -/
  source : Option Range := none
  /-- The corrections of its texts. -/
  corrections : Corrections := ∅

/-- A **node** of a style sheet. -/
inductive Node where
  /-- A rule with the nodes of its block. -/
  | rule (head : RuleHead) (nodes : List Node)
  /-- An at-rule with the nodes of its block. -/
  | atRule (head : AtRuleHead) (nodes : List Node)
  /-- An at-rule without a block. -/
  | atStatement (head : AtRuleHead)
  /-- A declaration. -/
  | declaration (d : Declaration)
  /-- A comment. -/
  | comment (c : Comment)

instance : Inhabited Node := ⟨.comment {}⟩

/-- The kinds of things that texts of a style sheet belong to. -/
inductive Owner where
  /-- A style sheet as a whole. -/
  | root
  /-- A rule. -/
  | rule
  /-- An at-rule, with or without a block. -/
  | atRule
  /-- A declaration. -/
  | declaration
  /-- A comment. -/
  | comment
deriving DecidableEq, Repr

namespace Node

/-- The kind of a node. -/
def owner : Node → Owner
  | rule .. => .rule
  | atRule .. | atStatement .. => .atRule
  | declaration .. => .declaration
  | comment .. => .comment

/-- Where a node stands. -/
def source? : Node → Option Range
  | rule h _ => h.source
  | atRule h _ | atStatement h => h.source
  | declaration d => d.source
  | comment c => c.source

/-- The corrections of the texts of a node. -/
def corrections : Node → Corrections
  | rule h _ => h.corrections
  | atRule h _ | atStatement h => h.corrections
  | declaration d => d.corrections
  | comment c => c.corrections

/-- Replaces the corrections of the texts of a node. -/
def withCorrections (cs : Corrections) : Node → Node
  | rule h ns => rule { h with corrections := cs } ns
  | atRule h ns => atRule { h with corrections := cs } ns
  | atStatement h => atStatement { h with corrections := cs }
  | declaration d => declaration { d with corrections := cs }
  | comment c => comment { c with corrections := cs }

/-- The nodes in the block of a node, none if it has no block. -/
def children : Node → List Node
  | rule _ ns | atRule _ ns => ns
  | _ => []

/-- The nodes in the block of a node, if it can have a block. -/
def block? : Node → Option (List Node)
  | rule _ ns | atRule _ ns => some ns
  | _ => none

/-- Replaces the nodes in the block of a node that can have one. -/
def withChildren (ns : List Node) : Node → Node
  | rule h _ => rule h ns
  | atRule h _ => atRule h ns
  | n => n

/-- Whether a semicolon separates a node from the one after it. -/
def needsSemicolon : Node → Bool
  | declaration _ | atStatement _ => true
  | rule h _ => h.mixin
  | _ => false

mutual

/-- A node and the nodes below it, parents first. -/
def preorder : Node → List Node
  | rule h ns => rule h ns :: preorderAll ns
  | atRule h ns => atRule h ns :: preorderAll ns
  | atStatement h => [atStatement h]
  | declaration d => [declaration d]
  | comment c => [comment c]

/-- The nodes of a list and those below them, parents first. -/
def preorderAll : List Node → List Node
  | [] => []
  | n :: ns => n.preorder ++ preorderAll ns

end

end Node

/-- Whether a declaration is marked as important. -/
def Declaration.isImportant (d : Declaration) : Bool :=
  "!important".toList.isSuffixOf ((Text.trimEnd d.value).map Char.toLower)

/-- A **style sheet**. -/
structure Root where
  /-- The nodes at the top level. -/
  nodes : List Node := []
  /-- What stands after the last node. -/
  after : Option Text := none
  /-- Whether the last node ends in a semicolon. -/
  semicolon : Bool := false
  /-- Where the style sheet stands. -/
  source : Option Range := none
  /-- The corrections of its texts. -/
  corrections : Corrections := ∅
  /-- The name of the input it came from. -/
  origin : Option Text := none

namespace Root

/-- All nodes of a style sheet, parents first. -/
def descendants (r : Root) : List Node :=
  Node.preorderAll r.nodes

/-- All declarations of a style sheet in order. -/
def declarations (r : Root) : List Declaration :=
  r.descendants.filterMap fun
    | .declaration d => some d
    | _ => none

end Root

end StyleBlocks.Sheet
