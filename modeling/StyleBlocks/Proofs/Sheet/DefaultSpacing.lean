import StyleBlocks.Proofs.Sheet.LeafForm
import StyleBlocks.Sheet.Fragment

/-!
# Default spacing

Raws that a node lacks are printed with default spacing, which depends on the depth of the node and on
whether it is the first one of its style sheet. If that spacing is written out as the raws of the node,
the same is printed, and wherever the node stands then.

## Main results

* `Printer.node_spaced`, `Printer.nodes_spacedAll`: nodes with their spacing written out are printed as
  before.
* `Node.bare_spaced`: they say the same.
-/

namespace StyleBlocks.Sheet

mutual

/-- A node with the **spacing written out** that it has at a depth. -/
def Node.spaced (s : Spacing) (depth : Nat) (first : Bool) : Node → Node
  | .rule h ns =>
    .rule
      { h with
        before := some (h.before.getD (s.before depth first))
        between := some (h.between.getD (if h.mixin then [] else s.beforeOpen))
        after := some (h.after.getD (s.close depth ns)) }
      (Node.spacedAll s (depth + 1) false ns)
  | .atRule h ns =>
    .atRule
      { h with
        before := some (h.before.getD (s.before depth first))
        afterName := some (h.afterName.getD (if h.params.isEmpty then [] else [' ']))
        between := some (h.between.getD s.beforeOpen)
        after := some (h.after.getD (s.close depth ns)) }
      (Node.spacedAll s (depth + 1) false ns)
  | .atStatement h =>
    .atStatement
      { h with
        before := some (h.before.getD (s.before depth first))
        afterName := some (h.afterName.getD (if h.params.isEmpty then [] else [' ']))
        between := some (h.between.getD []) }
  | .declaration d =>
    .declaration
      { d with
        before := some (d.before.getD (s.before depth first))
        between := some (d.between.getD s.colon)
        after := some (d.after.getD []) }
  | .comment c => .comment { c with before := some (c.before.getD (s.before depth first)) }

/-- Nodes with the spacing written out that they have at a depth. -/
def Node.spacedAll (s : Spacing) (depth : Nat) (first : Bool) : List Node → List Node
  | [] => []
  | n :: ns => n.spaced s depth first :: Node.spacedAll s depth false ns

end

section

variable {s : Spacing} {depth : Nat} {first : Bool}

/-- A node with its spacing written out needs a semicolon if the node does. -/
@[simp] theorem Node.needsSemicolon_spaced (n : Node) :
    (n.spaced s depth first).needsSemicolon = n.needsSemicolon := by
  cases n <;> rfl

/-- A node with its spacing written out has the same owner. -/
@[simp] theorem Node.owner_spaced (n : Node) : (n.spaced s depth first).owner = n.owner := by
  cases n <;> rfl

/-- There are as many nodes with their spacing written out as there were. -/
@[simp] theorem Node.isEmpty_spacedAll (ns : List Node) :
    (Node.spacedAll s depth first ns).isEmpty = ns.isEmpty := by
  cases ns <;> rfl

/-- Nodes with their spacing are the nodes, each with the spacing it has where it stands. -/
theorem Node.exists_of_mem_spacedAll {m : Node} {ns : List Node}
    (h : m ∈ Node.spacedAll s depth first ns) : ∃ n ∈ ns, ∃ first, m = n.spaced s depth first := by
  induction ns generalizing first with
  | nil => contradiction
  | cons n ns ih =>
      rcases List.mem_cons.1 h with rfl | h
      · exact ⟨n, List.mem_cons_self, first, rfl⟩
      · obtain ⟨l, hl, hm⟩ := ih h
        exact ⟨l, List.mem_cons_of_mem n hl, hm⟩

/-- A raw that is written out is printed as the one that is missing. -/
theorem Printer.lookUp_getD (o : Owner) (cs : Corrections) (key : RawKey) (own : Option Text)
    (d e : Text) :
    ({ spacing := s } : Printer).lookUp o cs key (some (own.getD d)) e =
      ({ spacing := s } : Printer).lookUp o cs key own d := by
  cases own <;> rfl

mutual

/-- **A node with its spacing written out** is printed as before. -/
theorem Printer.node_spaced (s : Spacing) (depth : Nat) (first : Bool) : ∀ n : Node,
    ({ spacing := s } : Printer).node depth first (n.spaced s depth first) =
      ({ spacing := s } : Printer).node depth first n
  | .rule h ns => by
      have ih := Printer.nodes_spacedAll s (depth + 1) false h.semicolon ns
      cases hm : h.mixin <;> simp [Node.spaced, Printer.node, Printer.lookUp_getD, ih, hm]
  | .atRule h ns => by
      have ih := Printer.nodes_spacedAll s (depth + 1) false h.semicolon ns
      simp [Node.spaced, Printer.node, Printer.atRuleHead, Printer.lookUp_getD, ih]
  | .atStatement h => by simp [Node.spaced, Printer.node, Printer.atRuleHead, Printer.lookUp_getD]
  | .declaration d => by simp [Node.spaced, Printer.node, Printer.declaration, Printer.lookUp_getD]
  | .comment c => by simp [Node.spaced, Printer.node, Printer.comment, Printer.lookUp_getD]

/-- **Nodes with their spacing written out** are printed as before. -/
theorem Printer.nodes_spacedAll (s : Spacing) (depth : Nat) (first semicolon : Bool) :
    ∀ ns : List Node,
      ({ spacing := s } : Printer).nodes depth first semicolon (Node.spacedAll s depth first ns) =
        ({ spacing := s } : Printer).nodes depth first semicolon ns
  | [] => rfl
  | n :: ns => by
      rw [Node.spacedAll, Printer.nodes, Printer.nodes, Printer.node_spaced s depth first n,
        Printer.nodes_spacedAll s depth false semicolon ns, Node.needsSemicolon_spaced,
        Node.owner_spaced, Node.isEmpty_spacedAll]

end

mutual

/-- Spacing says nothing. -/
theorem Node.bare_spaced (s : Spacing) (depth : Nat) (first : Bool) : ∀ n : Node,
    (n.spaced s depth first).bare = n.bare
  | .rule h ns => by simp [Node.spaced, Node.bare, Node.bareAll_spacedAll s (depth + 1) false ns]
  | .atRule h ns => by simp [Node.spaced, Node.bare, Node.bareAll_spacedAll s (depth + 1) false ns]
  | .atStatement h => rfl
  | .declaration d => rfl
  | .comment c => rfl

/-- Nodes with their spacing written out say the same. -/
theorem Node.bareAll_spacedAll (s : Spacing) (depth : Nat) (first : Bool) : ∀ ns : List Node,
    Node.bareAll (Node.spacedAll s depth first ns) = Node.bareAll ns
  | [] => rfl
  | n :: ns => by
      rw [Node.spacedAll, Node.bareAll, Node.bareAll, Node.bare_spaced s depth first n,
        Node.bareAll_spacedAll s depth false ns]

end

end

end StyleBlocks.Sheet
