import Mathlib.Data.List.Forall2
import StyleBlocks.Proofs.Block.Atom
import StyleBlocks.Proofs.Text.Indent
import StyleBlocks.Rendering.Format

/-!
# Reading trees off outlines

An outline has one line for each node of the document's trees, parents first. What is drawn in front of a
line tells how deep its node stands and whether it is the last of its siblings, whatever the label: a label
stands on one line and behind the drawing. The depths of the lines in turn tell the shape of the trees.

## Main results

* `Entry.exists_row`: an entry is printed as one line, from which the place of its node can be read.
* `forestOf_placedAll`: depths in order tell the shape of trees.
* `outlineWith_readable`: an outline shows every node on a line of its own and tells the shape of the trees.
-/

namespace StyleBlocks.Outline

/-! ### Trees -/

/-- A **tree** with a value at each node. -/
inductive Tree (α : Type) where
  /-- A node with the trees below it. -/
  | node (value : α) (children : List (Tree α))

/-- The **place** of a node among others. -/
structure Place where
  /-- The number of nodes above it. -/
  depth : Nat
  /-- Whether it is the last of its siblings. -/
  isLast : Bool
deriving DecidableEq, Repr

namespace Tree

variable {α : Type}

mutual

/-- The values of a tree with the places of their nodes, parents first. -/
def placed (depth : Nat) (isLast : Bool) : Tree α → List (Place × α)
  | node a ts => (⟨depth, isLast⟩, a) :: placedAll (depth + 1) ts

/-- The values of siblings and of what is below them with the places of their nodes. -/
def placedAll (depth : Nat) : List (Tree α) → List (Place × α)
  | [] => []
  | t :: ts => t.placed depth ts.isEmpty ++ placedAll depth ts

end

mutual

/-- A tree without its values. -/
def shape : Tree α → Tree Unit
  | node _ ts => node () (shapeAll ts)

/-- Trees without their values. -/
def shapeAll : List (Tree α) → List (Tree Unit)
  | [] => []
  | t :: ts => t.shape :: shapeAll ts

end

end Tree

/-! ### Shapes from depths -/

/-- Puts a node at a depth in front of trees at theirs: those that stand deeper, up to the first that does
not, are below it. -/
def gather (depth : Nat) (ts : List (Nat × Tree Unit)) : List (Nat × Tree Unit) :=
  (depth, .node () ((ts.takeWhile fun t => depth < t.1).map Prod.snd)) ::
    ts.dropWhile fun t => depth < t.1

/-- The shape of the trees whose nodes, parents first, stand at the given depths. -/
def forestOf (depths : List Nat) : List (Tree Unit) :=
  (depths.foldr gather []).map Prod.snd

section

variable {α : Type}

mutual

/-- The nodes of one tree are gathered to its shape in front of whatever does not stand deeper. -/
theorem foldr_gather_placed {depth : Nat} {us : List (Nat × Tree Unit)} (isLast : Bool) (t : Tree α)
    (h : ∀ u ∈ us.head?, u.1 ≤ depth) :
    ((t.placed depth isLast).map fun p => p.1.depth).foldr gather us = (depth, t.shape) :: us := by
  match t with
  | .node a ts =>
      have hdeeper : ∀ u ∈ us.head?, u.1 ≤ depth + 1 := fun u hu => Nat.le_succ_of_le (h u hu)
      have htake : us.takeWhile (fun u => depth < u.1) = [] := by
        cases us with
        | nil => rfl
        | cons u us => simp [h u rfl]
      have hdrop : us.dropWhile (fun u => depth < u.1) = us := by
        simpa [htake] using List.takeWhile_append_dropWhile (p := fun u => depth < u.1) (l := us)
      have hbelow : ∀ u ∈ (Tree.shapeAll ts).map (Prod.mk (depth + 1)), decide (depth < u.1) = true := by
        intro u hu
        obtain ⟨s, -, rfl⟩ := List.mem_map.1 hu
        simp
      rw [Tree.placed, List.map_cons, List.foldr_cons, foldr_gather_placedAll ts hdeeper, gather,
        List.takeWhile_append_of_pos hbelow, List.dropWhile_append_of_pos hbelow, htake, hdrop,
        Tree.shape]
      simp [Function.comp_def]

/-- The nodes of siblings are gathered to their shapes. -/
theorem foldr_gather_placedAll {depth : Nat} {us : List (Nat × Tree Unit)} (ts : List (Tree α))
    (h : ∀ u ∈ us.head?, u.1 ≤ depth) :
    ((Tree.placedAll depth ts).map fun p => p.1.depth).foldr gather us =
      (Tree.shapeAll ts).map (Prod.mk depth) ++ us := by
  match ts with
  | [] => rfl
  | t :: ts =>
      have hnext : ∀ u ∈ ((Tree.shapeAll ts).map (Prod.mk depth) ++ us).head?, u.1 ≤ depth := by
        cases ts with
        | nil => exact h
        | cons s ts => simp [Tree.shapeAll]
      rw [Tree.placedAll, List.map_append, List.foldr_append, foldr_gather_placedAll ts h,
        foldr_gather_placed _ t hnext]
      rfl

end

/-- **Depths in order tell the shape of trees.** -/
theorem forestOf_placedAll (depth : Nat) (ts : List (Tree α)) :
    forestOf ((Tree.placedAll depth ts).map fun p => p.1.depth) = Tree.shapeAll ts := by
  rw [forestOf, foldr_gather_placedAll ts (by simp), List.append_nil, List.map_map]
  exact List.map_id _

end

/-! ### The trees of a document -/

/-- What a line of an outline can show. -/
inductive Item where
  /-- A block. -/
  | block (b : StyleBlock)
  /-- A node in a block. -/
  | node (b : StyleBlock) (n : Sheet.Node)

/-- The icon of an item. -/
def Item.icon : Item → Char
  | block _ => '⊤'
  | node b n => Outline.icon b.expressions n

/-- The label of an item. -/
def Item.label : Item → Text
  | block b =>
    match b.root.source with
    | some r => r.start.render
    | none => "block".toList
  | node b n => Outline.label b.expressions n

mutual

/-- The tree of a node of a block. -/
def treeOf (b : StyleBlock) : Sheet.Node → Tree Item
  | .rule h ns => .node (.node b (.rule h ns)) (treesOf b ns)
  | .atRule h ns => .node (.node b (.atRule h ns)) (treesOf b ns)
  | .atStatement h => .node (.node b (.atStatement h)) []
  | .declaration d => .node (.node b (.declaration d)) []
  | .comment c => .node (.node b (.comment c)) []

/-- The trees of siblings in a block. -/
def treesOf (b : StyleBlock) : List Sheet.Node → List (Tree Item)
  | [] => []
  | n :: ns => treeOf b n :: treesOf b ns

end

/-- The trees of blocks. -/
def blockTrees (bs : List StyleBlock) : List (Tree Item) :=
  bs.map fun b => .node (.block b) (treesOf b b.root.nodes)

section

variable {b : StyleBlock}

mutual

/-- The tree of a node has the node and those below it, parents first. -/
theorem map_snd_placed_treeOf (depth : Nat) (isLast : Bool) (n : Sheet.Node) :
    ((treeOf b n).placed depth isLast).map Prod.snd = n.preorder.map (Item.node b) := by
  match n with
  | .rule h ns | .atRule h ns =>
      rw [treeOf, Tree.placed, List.map_cons, map_snd_placedAll_treesOf, Sheet.Node.preorder,
        List.map_cons]
  | .atStatement h => rfl
  | .declaration d => rfl
  | .comment c => rfl

/-- The trees of siblings have the siblings and those below them. -/
theorem map_snd_placedAll_treesOf (depth : Nat) (ns : List Sheet.Node) :
    (Tree.placedAll depth (treesOf b ns)).map Prod.snd =
      (Sheet.Node.preorderAll ns).map (Item.node b) := by
  match ns with
  | [] => rfl
  | n :: ns =>
      rw [treesOf, Tree.placedAll, List.map_append, map_snd_placed_treeOf,
        map_snd_placedAll_treesOf, Sheet.Node.preorderAll, List.map_append]

end

/-- **The trees of blocks have each block and, behind it, its nodes.** -/
theorem map_snd_placedAll_blockTrees (bs : List StyleBlock) :
    (Tree.placedAll 0 (blockTrees bs)).map Prod.snd =
      bs.flatMap fun b => .block b :: b.root.descendants.map (.node b) := by
  induction bs with
  | nil => rfl
  | cons b bs ih =>
      rw [blockTrees, List.map_cons, Tree.placedAll, List.map_append, Tree.placed, List.map_cons,
        map_snd_placedAll_treesOf, List.flatMap_cons]
      exact congrArg _ ih

end

/-! ### Entries -/

/-- An entry is **for** an item at a place. -/
structure Entry.IsFor (e : Entry) (p : Place × Item) : Prop where
  depth : e.ancestors.length = p.1.depth
  isLast : e.isLast = p.1.isLast
  icon : e.icon = p.2.icon
  label : e.label = p.2.label

section

variable {b : StyleBlock}

mutual

/-- The entries of a node are for the node and those below it. -/
theorem isFor_nodeEntries (as : List Bool) {isLast : Bool} (n : Sheet.Node) :
    List.Forall₂ Entry.IsFor (nodeEntries b.expressions as isLast n)
      ((treeOf b n).placed as.length isLast) := by
  match n with
  | .rule h ns | .atRule h ns =>
      have hbelow := isFor_nodesEntries (as ++ [isLast]) ns
      rw [List.length_append] at hbelow
      exact .cons ⟨rfl, rfl, rfl, rfl⟩ hbelow
  | .atStatement h => exact .cons ⟨rfl, rfl, rfl, rfl⟩ .nil
  | .declaration d => exact .cons ⟨rfl, rfl, rfl, rfl⟩ .nil
  | .comment c => exact .cons ⟨rfl, rfl, rfl, rfl⟩ .nil

/-- The entries of siblings are for the siblings and those below them. -/
theorem isFor_nodesEntries (as : List Bool) (ns : List Sheet.Node) :
    List.Forall₂ Entry.IsFor (nodesEntries b.expressions as ns)
      (Tree.placedAll as.length (treesOf b ns)) := by
  match ns with
  | [] => exact .nil
  | n :: ns =>
      have hlast : (treesOf b ns).isEmpty = ns.isEmpty := by cases ns <;> rfl
      rw [nodesEntries, treesOf, Tree.placedAll, hlast]
      exact List.rel_append (isFor_nodeEntries as n) (isFor_nodesEntries as ns)

end

/-- The entries of blocks are for the blocks and their nodes. -/
theorem isFor_blocksEntries (bs : List StyleBlock) :
    List.Forall₂ Entry.IsFor (blocksEntries bs) (Tree.placedAll 0 (blockTrees bs)) := by
  induction bs with
  | nil => exact .nil
  | cons b bs ih =>
      have hlast : (blockTrees bs).isEmpty = bs.isEmpty := by cases bs <;> rfl
      have hblock : List.Forall₂ Entry.IsFor (blockEntries bs.isEmpty b)
          ((Tree.node (.block b) (treesOf b b.root.nodes)).placed 0 bs.isEmpty) :=
        .cons ⟨rfl, rfl, rfl, rfl⟩ (isFor_nodesEntries [bs.isEmpty] b.root.nodes)
      rw [blocksEntries, blockTrees, List.map_cons, Tree.placedAll, ← blockTrees, hlast]
      exact List.rel_append hblock ih

end

/-! ### Lines -/

/-- A line without the number in front of it. -/
def dropNumber (row : Text) : Text :=
  if row.head?.any Char.isDigit then (row.dropWhile Char.isDigit).drop 1 else row

/-- The place of a node, told by the drawing that a text starts with: two characters for each node above
it and two for its own branch. -/
def readDrawing? : Text → Option Place
  | '└' :: '─' :: _ => some ⟨0, true⟩
  | '├' :: '─' :: _ => some ⟨0, false⟩
  | ' ' :: ' ' :: t | '│' :: ' ' :: t => (readDrawing? t).map fun p => { p with depth := p.depth + 1 }
  | _ => none

/-- The place of the node on a line, with or without a number in front. -/
def readPlace? (row : Text) : Option Place :=
  readDrawing? (dropNumber row)

/-- The shape of the trees of an outline, told by the lines below the first. -/
def readForest? (outline : Text) : Option (List (Tree Unit)) :=
  ((Text.lines outline).tail.dropLast.mapM readPlace?).map fun ps => forestOf (ps.map Place.depth)

/-- A line **shows** an item at a place: the place can be read from it, and it ends in the item's icon and
its label, cut off at the limit. -/
structure Shows (row : Text) (p : Place × Item) : Prop where
  place : readPlace? row = some p.1
  caption : ∃ front, row = front ++ ' ' :: p.2.icon :: ' ' :: shorten p.2.label

/-- **The drawing in front of a node tells its place**, whatever follows. -/
theorem readDrawing?_append (as : List Bool) (isLast : Bool) (t : Text) :
    readDrawing? (as.flatMap rail ++ (connector isLast ++ t)) = some ⟨as.length, isLast⟩ := by
  induction as with
  | nil => cases isLast <;> rfl
  | cons a as ih =>
      rw [List.flatMap_cons, List.append_assoc]
      cases a <;> exact (congrArg (Option.map _) ih).trans rfl

/-- A drawing does not begin with a digit. -/
theorem head?_drawing (as : List Bool) (isLast : Bool) (t : Text) :
    (as.flatMap rail ++ (connector isLast ++ t)).head?.any Char.isDigit = false := by
  cases as with
  | nil => cases isLast <;> rfl
  | cons a as => cases a <;> rfl

/-- A number is drawn with digits. -/
theorem isDigit_of_mem_twoDigits {c : Char} {n : Nat} (h : c ∈ twoDigits n) : c.isDigit = true := by
  rw [twoDigits] at h
  split at h
  · rcases List.mem_cons.1 h with rfl | h
    · rfl
    · exact Placeholder.isDigit_of_mem_ofNat h
  · exact Placeholder.isDigit_of_mem_ofNat h

/-- A number is drawn with at least one digit. -/
theorem twoDigits_ne_nil (n : Nat) : twoDigits n ≠ [] := by
  rw [twoDigits]
  split
  · exact List.cons_ne_nil _ _
  · exact Nat.toDigits_ne_nil

/-- A number and the blank behind it are dropped from a line. -/
theorem dropNumber_twoDigits (n : Nat) (t : Text) : dropNumber (twoDigits n ++ ' ' :: t) = t := by
  have hhead : (twoDigits n ++ ' ' :: t).head?.any Char.isDigit = true := by
    obtain ⟨c, cs, hn⟩ := List.exists_cons_of_ne_nil (twoDigits_ne_nil n)
    have hc : c.isDigit = true := isDigit_of_mem_twoDigits (n := n) (by simp [hn])
    simpa [hn] using hc
  rw [dropNumber, if_pos hhead,
    List.dropWhile_append_of_pos fun c hc => isDigit_of_mem_twoDigits hc]
  rfl

/-- A label stands on one line. -/
theorem newline_notMem_shorten (t : Text) : '\n' ∉ shorten t := by
  have hflat : '\n' ∉ t.map fun c => if c = '\n' then '↵' else c := by
    intro h
    obtain ⟨c, -, hc⟩ := List.mem_map.1 h
    split at hc
    · exact absurd hc (by decide)
    · contradiction
  rw [shorten]
  split
  · rw [List.mem_append, not_or]
    exact ⟨fun h => hflat (List.mem_of_mem_take h), by decide⟩
  · exact hflat

/-- Icons are no line feeds. -/
theorem Item.icon_ne_newline (i : Item) : i.icon ≠ '\n' := by
  cases i with
  | block b => exact (by decide : '⊤' ≠ '\n')
  | node b n =>
      simp only [Item.icon]
      cases n <;> simp only [Outline.icon] <;> try decide
      split <;> decide

/-- **An entry is printed as one line** that shows what the entry is for. -/
theorem Entry.exists_row {e : Entry} {p : Place × Item} (h : e.IsFor p) (lineNumbers : Bool) :
    ∃ row, e.render lineNumbers = row ++ ['\n'] ∧ '\n' ∉ row ∧ Shows row p := by
  obtain ⟨hdepth, hlast, hicon, hlabel⟩ := h
  let caption := ' ' :: e.icon :: ' ' :: shorten e.label
  let drawing := e.ancestors.flatMap rail ++ (connector e.isLast ++ caption)
  let number := if lineNumbers then twoDigits e.line ++ [' '] else []
  have hcaption : '\n' ∉ caption := by
    simp only [caption, List.mem_cons, not_or]
    exact ⟨by decide, fun hn => p.2.icon_ne_newline (hicon ▸ hn.symm), by decide,
      newline_notMem_shorten _⟩
  have hdrawing : '\n' ∉ drawing := by
    have hrail : ∀ a, '\n' ∉ rail a := by intro a; cases a <;> decide
    have hconnector : '\n' ∉ connector e.isLast := by cases e.isLast <;> decide
    simp only [drawing, List.mem_append, List.mem_flatMap, not_or, not_exists, not_and]
    exact ⟨fun a _ => hrail a, hconnector, hcaption⟩
  have hnumber : '\n' ∉ number := by
    intro hn
    simp only [number] at hn
    split at hn
    · rcases List.mem_append.1 hn with hn | hn
      · exact absurd (isDigit_of_mem_twoDigits hn) (by decide)
      · exact absurd hn (by decide)
    · contradiction
  have hplace : readPlace? (number ++ drawing) = some p.1 := by
    have hdrop : dropNumber (number ++ drawing) = drawing := by
      cases lineNumbers with
      | false => exact if_neg (Bool.eq_false_iff.1 (head?_drawing e.ancestors e.isLast caption))
      | true => simpa [number] using dropNumber_twoDigits e.line drawing
    rw [readPlace?, hdrop, readDrawing?_append, hdepth, hlast]
  refine ⟨number ++ drawing, ?_, ?_, hplace, number ++ (e.ancestors.flatMap rail ++ connector e.isLast),
    ?_⟩
  · simp [Entry.render, number, drawing, caption]
  · rw [List.mem_append, not_or]
    exact ⟨hnumber, hdrawing⟩
  · simp [drawing, caption, hicon, hlabel]

/-- A line feed ends a line. -/
theorem lines_append_newline {l : Text} (hl : '\n' ∉ l) (t : Text) :
    Text.lines (l ++ '\n' :: t) = l :: Text.lines t := by
  induction l with
  | nil => rfl
  | cons c l ih =>
      rw [List.mem_cons, not_or] at hl
      exact Text.lines_cons_of_ne (Ne.symm hl.1) (ih hl.2)

/-- **Entries are printed as lines**, each of which shows what its entry is for. -/
theorem exists_rows {es : List Entry} {ps : List (Place × Item)}
    (h : List.Forall₂ Entry.IsFor es ps) (lineNumbers : Bool) :
    ∃ rows, Text.lines (es.flatMap (Entry.render lineNumbers)) = rows ++ [[]] ∧
      List.Forall₂ Shows rows ps := by
  induction h with
  | nil => exact ⟨[], rfl, .nil⟩
  | cons he _ ih =>
      obtain ⟨rows, hrows, hshows⟩ := ih
      obtain ⟨row, hrender, hrow, hshow⟩ := Entry.exists_row he lineNumbers
      refine ⟨row :: rows, ?_, .cons hshow hshows⟩
      rw [List.flatMap_cons, hrender, List.append_assoc, List.singleton_append,
        lines_append_newline hrow, hrows, List.cons_append]

/-- The line for the document is one line. -/
theorem exists_heading (d : Document) : ∃ first, heading d = first ++ ['\n'] ∧ '\n' ∉ first := by
  refine ⟨_, rfl, fun h => ?_⟩
  simp only [List.mem_append] at h
  rcases h with (h | h) | h
  · exact absurd h (by decide)
  · exact absurd (Placeholder.isDigit_of_mem_ofNat h) (by decide)
  · split at h <;> exact absurd h (by decide)

/-- The places of lines that show items are those of the items. -/
theorem mapM_readPlace? {rows : List Text} {ps : List (Place × Item)}
    (h : List.Forall₂ Shows rows ps) : rows.mapM readPlace? = some (ps.map Prod.fst) := by
  induction h with
  | nil => rfl
  | cons hrow _ ih => simp [hrow.place, ih]

/-- **An outline shows a document's trees**: below the line for the document there is, ended by a line
feed like that one, one line for each block and each of its nodes, parents first, from which the depth of
the node and whether it is the last of its siblings can be read; so the shape of the trees can be. -/
theorem outlineWith_readable (parameters : Catalog Text) (d : Document) :
    (∃ first rows, heading d = first ++ ['\n'] ∧
      Text.lines (d.outlineWith parameters) = first :: rows ++ [[]] ∧
      List.Forall₂ Shows rows (Tree.placedAll 0 (blockTrees d.blocks))) ∧
    (Tree.placedAll 0 (blockTrees d.blocks)).map Prod.snd =
      (d.blocks.flatMap fun b => .block b :: b.root.descendants.map (.node b)) ∧
    readForest? (d.outlineWith parameters) = some (Tree.shapeAll (blockTrees d.blocks)) := by
  obtain ⟨first, hheading, hfirst⟩ := exists_heading d
  obtain ⟨rows, hrows, hshows⟩ := exists_rows (isFor_blocksEntries d.blocks)
    ((parameters.get? lineNumberParameter).any (· ≠ "false".toList))
  have hlines : Text.lines (d.outlineWith parameters) = first :: rows ++ [[]] := by
    rw [Document.outlineWith, Document.outline, hheading, List.append_assoc, List.singleton_append,
      lines_append_newline hfirst, hrows, List.cons_append]
  refine ⟨⟨first, rows, hheading, hlines, hshows⟩, map_snd_placedAll_blockTrees d.blocks, ?_⟩
  have hinner : (Text.lines (d.outlineWith parameters)).tail.dropLast = rows := by
    rw [hlines, List.cons_append, List.tail_cons, List.dropLast_concat]
  rw [readForest?, hinner, mapM_readPlace? hshows, Option.map_some, List.map_map]
  exact congrArg some (forestOf_placedAll 0 (blockTrees d.blocks))

end StyleBlocks.Outline
