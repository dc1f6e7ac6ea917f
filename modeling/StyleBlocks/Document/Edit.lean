import StyleBlocks.Document.Basic
import StyleBlocks.Sheet.Edit

/-!
# Editing documents

An `Edit` changes a document in one place. It names the block it works on by its index and the nodes in
that block by their paths. An edit whose target does not exist fails.
-/

namespace StyleBlocks

open Sheet

/-- A change of one part of a block, the nodes of its style sheet aside. -/
inductive BlockChange where
  /-- Sets what stands after the last node. -/
  | after (t : Option Text)
  /-- Sets whether the last node ends in a semicolon. -/
  | semicolon (b : Bool)
  /-- Sets the host text in front of the block. -/
  | leading (t : Text)
  /-- Sets the host text after the block. -/
  | trailing (t : Option Text)
  /-- Forgets how the text of the block came from its template. -/
  | detach
  /-- Sets the texts of the holes. -/
  | expressions (ts : List Text)

/-- Changes a block. The holes of a block that does not know where it came from cannot be set. -/
def BlockChange.applyTo? (c : BlockChange) (b : StyleBlock) : Option StyleBlock :=
  match c with
  | after t => some { b with root := { b.root with after := t } }
  | semicolon s => some { b with root := { b.root with semicolon := s } }
  | leading t => some { b with leading := t }
  | trailing t => some { b with trailing := t }
  | detach => some { b with config := none }
  | expressions ts => b.config.map fun c => { b with config := some { c with expressions := ts } }

/-- An **edit** of a document. -/
inductive Edit where
  /-- Changes the node at a path in a block. -/
  | change (block : Nat) (path : Path) (c : Change)
  /-- Removes the node at a path in a block. -/
  | remove (block : Nat) (path : Path)
  /-- Inserts a node in a block, below the node at a path, as its child with the given index. -/
  | insert (block : Nat) (path : Path) (index : Nat) (node : Node)
  /-- Inserts the node at a path in a block in a block, with all that is known of it. -/
  | copy (block : Nat) (path : Path) (toBlock : Nat) (toPath : Path) (index : Nat)
  /-- Drops the corrections of the node at a path in a block. -/
  | dropCorrections (block : Nat) (path : Path)
  /-- Changes a block. -/
  | changeBlock (block : Nat) (c : BlockChange)
  /-- Removes a block. -/
  | removeBlock (block : Nat)
  /-- Swaps two blocks. -/
  | swapBlocks (first second : Nat)
  /-- Sets the host text. -/
  | source (t : Text)

namespace Document

/-- Edits the block with an index. -/
def modifyBlock? (i : Nat) (f : StyleBlock → Option StyleBlock) (d : Document) :
    Option Document := do
  return { d with blocks := d.blocks.set i (← f (← d.blocks[i]?)) }

/-- Edits the nodes at the top level of the block with an index. -/
def modifyNodes? (i : Nat) (f : List Node → Option (List Node)) (d : Document) : Option Document :=
  d.modifyBlock? i fun b => do
    return { b with root := { b.root with nodes := ← f b.root.nodes } }

/-- Edits a document. -/
def edit? (d : Document) : Edit → Option Document
  | .change i p c => d.modifyNodes? i fun ns => Node.modify? c.applyTo? ns p
  | .remove i p => d.modifyNodes? i fun ns => Node.remove? ns p
  | .insert i p index n => d.modifyNodes? i fun ns => Node.insert? index n ns p
  | .copy i p j q index => do
    let n ← Node.at? (← d.blocks[i]?).root.nodes p
    d.modifyNodes? j fun ns => Node.insert? index n ns q
  | .dropCorrections i p =>
    d.modifyNodes? i fun ns => Node.modify? (fun n => some (n.withCorrections ∅)) ns p
  | .changeBlock i c => d.modifyBlock? i c.applyTo?
  | .removeBlock i =>
    if i < d.blocks.length then some { d with blocks := d.blocks.eraseIdx i } else none
  | .swapBlocks i j => do
    let a ← d.blocks[i]?
    let b ← d.blocks[j]?
    return { d with blocks := (d.blocks.set i b).set j a }
  | .source t => some { d with source := t }

end Document

end StyleBlocks
