import StyleBlocks.Sheet.Node

/-!
# Editing style sheets

A node of a style sheet is found by its **path**: the indices of the nodes on the way down to it. A
`Change` gives one part of a node another value. The other edits work on a list of siblings, which the
path of the node around them names; the empty path names the top level.

An edit fails if its path leads nowhere or if the node has no such part, and changes nothing then.
Corrections stay as they are: one that was made for another text does not hold any more.
-/

namespace StyleBlocks.Sheet

/-- Another value for one part of a node. -/
inductive Change where
  /-- Sets the selector of a rule. -/
  | selector (t : Text)
  /-- Sets whether a rule is a mixin. -/
  | mixin (b : Bool)
  /-- Sets the name of an at-rule. -/
  | name (t : Text)
  /-- Sets the parameters of an at-rule. -/
  | params (t : Text)
  /-- Sets the property of a declaration. -/
  | prop (t : Text)
  /-- Sets the value of a declaration. -/
  | value (t : Text)
  /-- Sets the text of a comment. -/
  | text (t : Text)
  /-- Sets whether a comment goes to the end of its line. -/
  | inline (b : Bool)
  /-- Sets what stands in front of a node. -/
  | before (t : Option Text)
  /-- Sets what stands after the name of an at-rule. -/
  | afterName (t : Option Text)
  /-- Sets what stands between the two halves of a node. -/
  | between (t : Option Text)
  /-- Sets what stands at the end of a node. -/
  | after (t : Option Text)
  /-- Sets whether the last node of a block ends in a semicolon. -/
  | semicolon (b : Bool)
  /-- Gives an at-rule another block, or none. -/
  | block (nodes : Option (List Node))

namespace Change

/-- Changes the head of a rule. -/
def applyRule? (c : Change) (h : RuleHead) : Option RuleHead :=
  match c with
  | selector t => some { h with selector := t }
  | mixin b => some { h with mixin := b }
  | before t => some { h with before := t }
  | between t => some { h with between := t }
  | after t => some { h with after := t }
  | semicolon b => some { h with semicolon := b }
  | _ => none

/-- Changes the head of an at-rule. -/
def applyAtRule? (c : Change) (h : AtRuleHead) : Option AtRuleHead :=
  match c with
  | name t => some { h with name := t }
  | params t => some { h with params := t }
  | before t => some { h with before := t }
  | afterName t => some { h with afterName := t }
  | between t => some { h with between := t }
  | after t => some { h with after := t }
  | semicolon b => some { h with semicolon := b }
  | _ => none

/-- Changes a declaration. -/
def applyDeclaration? (c : Change) (d : Declaration) : Option Declaration :=
  match c with
  | prop t => some { d with prop := t }
  | value t => some { d with value := t }
  | before t => some { d with before := t }
  | between t => some { d with between := t }
  | after t => some { d with after := t }
  | _ => none

/-- Changes a comment. -/
def applyComment? (c : Change) (m : Comment) : Option Comment :=
  match c with
  | text t => some { m with text := t }
  | inline b => some { m with inline := b }
  | before t => some { m with before := t }
  | _ => none

/-- The at-rule with the given head and block. -/
def atRuleWith (h : AtRuleHead) : Option (List Node) → Node
  | some ns => .atRule h ns
  | none => .atStatement h

/-- Changes a node, if it has the part that is changed. -/
def applyTo? (c : Change) : Node → Option Node
  | .rule h ns => (c.applyRule? h).map (.rule · ns)
  | .atRule h ns =>
    match c with
    | block b => some (atRuleWith h b)
    | c => (c.applyAtRule? h).map (.atRule · ns)
  | .atStatement h =>
    match c with
    | block b => some (atRuleWith h b)
    | c => (c.applyAtRule? h).map .atStatement
  | .declaration d => (c.applyDeclaration? d).map .declaration
  | .comment m => (c.applyComment? m).map .comment

end Change

/-- The place of a node: the index of its ancestor at each level, and its own at last. -/
abbrev Path := List Nat

namespace Node

/-- The node at a path among some siblings. -/
def at? (ns : List Node) : Path → Option Node
  | [] => none
  | [i] => ns[i]?
  | i :: j :: p => do at? (← (← ns[i]?).block?) (j :: p)

/-- Edits the siblings below the node at a path, or the given ones if the path is empty. -/
def editBlock? (f : List Node → Option (List Node)) (ns : List Node) :
    Path → Option (List Node)
  | [] => f ns
  | i :: p => do
    let n ← ns[i]?
    let inner ← editBlock? f (← n.block?) p
    return ns.set i (n.withChildren inner)

/-- Edits the siblings among which the node at a path is, given its index. -/
def editAround? (f : Nat → List Node → Option (List Node)) (ns : List Node) (p : Path) :
    Option (List Node) := do
  let i ← p.getLast?
  editBlock? (f i) ns p.dropLast

/-- Edits the node at a path. -/
def modify? (f : Node → Option Node) (ns : List Node) (p : Path) : Option (List Node) :=
  editAround? (fun i ns => do return ns.set i (← f (← ns[i]?))) ns p

/-- Removes the node at a path. -/
def remove? (ns : List Node) (p : Path) : Option (List Node) :=
  editAround? (fun i ns => if i < ns.length then some (ns.eraseIdx i) else none) ns p

/-- Inserts a node below the node at a path, as the child with the given index. -/
def insert? (index : Nat) (n : Node) (ns : List Node) (p : Path) : Option (List Node) :=
  editBlock? (fun ns => if index ≤ ns.length then some (ns.insertIdx index n) else none) ns p

end Node

end StyleBlocks.Sheet
