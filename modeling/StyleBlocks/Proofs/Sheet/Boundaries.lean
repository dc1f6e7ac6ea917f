import Mathlib.Data.List.Infix
import StyleBlocks.Sheet.Edit
import StyleBlocks.Sheet.Fragment

/-!
# Boundaries in print

Some fragments mark where a node starts or ends. They are those of a walk through the tree: each node is
entered, then the nodes within it are walked through, then it is left. Nothing is within a mixin, even
if nodes have been put there by hand.

To say which node a fragment belongs to, `Printer.placedRoot` prints a style sheet with the path of the
node beside each fragment. It takes a printer for each path, so that what is printed for a text may depend
on the whole node; with one printer for all of them it is `Printer.root`.

## Main definitions

* `Root.walk`: the visits of a walk through the printed nodes of a style sheet.
* `Printer.placedRoot`: the fragments of a style sheet, each with the path of its node.

## Main results

* `Printer.root_boundaries`: the fragments that mark boundaries are the visits that do, and all that is
  printed for the nodes within a node stands between its boundaries.
-/

namespace StyleBlocks.Sheet

/-! ### Walks -/

namespace Node

/-- The nodes that are printed within a node: those of its block, none in a mixin. -/
def inner : Node → List Node
  | rule h ns => if h.mixin then [] else ns
  | atRule _ ns => ns
  | _ => []

/-- Whether the last of the nodes within a node ends in a semicolon. -/
def innerSemicolon : Node → Bool
  | rule h _ => h.semicolon
  | atRule h _ => h.semicolon
  | _ => false

/-- Whether the start of a node is marked. -/
def hasStart : Node → Bool
  | comment _ => false
  | _ => true

/-- Whether the end of a node is marked: it has a brace there. -/
def hasStop : Node → Bool
  | rule h _ => !h.mixin
  | atRule .. => true
  | _ => false

mutual

/-- A node with nothing left but what kind of node it and those below it are. -/
def frame : Node → Node
  | rule h ns => rule { mixin := h.mixin } (frameAll ns)
  | atRule _ ns => atRule {} (frameAll ns)
  | atStatement _ => atStatement {}
  | declaration _ => declaration {}
  | comment _ => comment {}

/-- The frames of the nodes of a list. -/
def frameAll : List Node → List Node
  | [] => []
  | n :: ns => n.frame :: frameAll ns

end

/-- **Induction on what is printed within nodes**: a property of lists of nodes holds if it holds of
the empty list, goes from what is within a node to the node, and from a node and a list to both. -/
theorem inner_induction {P : Node → Prop} {Q : List Node → Prop} (hP : ∀ n, Q n.inner → P n)
    (nil : Q []) (cons : ∀ n ns, P n → Q ns → Q (n :: ns)) : (∀ n, P n) ∧ ∀ ns, Q ns := by
  -- The recursor also goes through the nodes of a mixin, which say nothing about the mixin.
  have all (ns : List Node) : Q ns := by
    refine @rec_1 P Q ?rule ?atRule (fun _ => hP _ nil) (fun _ => hP _ nil) (fun _ => hP _ nil)
      nil cons ns
    case rule =>
      intro h ns ih
      refine hP _ ?_
      cases hm : h.mixin with
      | true => simpa [inner, hm] using nil
      | false => simpa [inner, hm] using ih
    case atRule => exact fun h ns ih => hP _ ih
  exact ⟨fun n => hP n (all n.inner), all⟩

end Node

/-- A step of a walk through a tree. -/
inductive Visit where
  /-- The walk comes to the node at a path. -/
  | enter (path : Path) (n : Node)
  /-- The walk is done with the node at a path and those within it. -/
  | leave (path : Path) (n : Node)

namespace Visit

/-- The path of the node that is visited. -/
def path : Visit → Path
  | enter p _ | leave p _ => p

/-- The node that is visited. -/
def node : Visit → Node
  | enter _ n | leave _ n => n

/-- The boundary that is marked at a visit, with the path of its node. -/
def mark? : Visit → Option (Path × Boundary)
  | enter p n => if n.hasStart then some (p, .start) else none
  | leave p n => if n.hasStop then some (p, .stop) else none

end Visit

mutual

/-- A **walk** through a node with the given path. -/
def Node.walk (path : Path) : Node → List Visit
  | .rule h ns =>
    .enter path (.rule h ns) ::
      ((if h.mixin then [] else walkAll path 0 ns) ++ [.leave path (.rule h ns)])
  | .atRule h ns => .enter path (.atRule h ns) :: (walkAll path 0 ns ++ [.leave path (.atRule h ns)])
  | .atStatement h => [.enter path (.atStatement h), .leave path (.atStatement h)]
  | .declaration d => [.enter path (.declaration d), .leave path (.declaration d)]
  | .comment c => [.enter path (.comment c), .leave path (.comment c)]

/-- A walk through nodes within the node at a path, the first of which has the given index there. -/
def Node.walkAll (path : Path) (index : Nat) : List Node → List Visit
  | [] => []
  | n :: ns => n.walk (path ++ [index]) ++ walkAll path (index + 1) ns

end

/-- The walk through a style sheet. -/
def Root.walk (r : Root) : List Visit :=
  Node.walkAll [] 0 r.nodes

/-- What the thing at a path is: a style sheet, or a node of it. -/
def Root.ownerAt? (r : Root) (path : Path) : Option Owner :=
  if path = [] then some .root else (Node.at? r.nodes path).map Node.owner

/-! ### Placed fragments -/

/-- A fragment and the path of the node that it belongs to, which is empty for a style sheet. -/
structure PlacedFragment where
  /-- The path of the node. -/
  path : Path
  /-- The fragment. -/
  fragment : Fragment

/-- A path leads to a node below the one at another path. -/
def Path.IsBelow (a b : Path) : Prop :=
  b <+: a ∧ b ≠ a

namespace PlacedFragment

/-- The boundary that a fragment marks, with the path of its node. -/
def mark? (f : PlacedFragment) : Option (Path × Boundary) :=
  f.fragment.boundary.map (f.path, ·)

/-- A fragment may stand in front of another: nothing below a node comes after its end or in front of
its start. -/
def MayPrecede (f g : PlacedFragment) : Prop :=
  (f.fragment.boundary = some .stop → ¬ Path.IsBelow g.path f.path) ∧
    (g.fragment.boundary = some .start → ¬ Path.IsBelow f.path g.path)

end PlacedFragment

namespace Printer

/-- The fragments of a node in front of those within it. -/
def opening (q : Printer) (depth : Nat) (first : Bool) : Node → List Fragment
  | .rule h _ =>
    let text := q.lookUp .rule h.corrections
    emit .rule (text .before h.before (q.spacing.before depth first)) ++
      [mark .rule .start (text .value (some h.selector) [])] ++
      (if h.mixin then emit .rule (text .between h.between [])
        else emit .rule (text .between h.between q.spacing.beforeOpen ++ ['{']))
  | .atRule h _ =>
    let text := q.lookUp .atRule h.corrections
    emit .atRule (text .before h.before (q.spacing.before depth first)) ++ q.atRuleHead h ++
      emit .atRule (text .between h.between q.spacing.beforeOpen ++ ['{'])
  | n => q.node depth first n

/-- The fragments of a node after those within it. -/
def closing (q : Printer) (depth : Nat) : Node → List Fragment
  | .rule h ns =>
    if h.mixin then []
    else emit .rule (q.lookUp .rule h.corrections .after h.after (q.spacing.close depth ns)) ++
      [mark .rule .stop ['}']]
  | .atRule h ns =>
    emit .atRule (q.lookUp .atRule h.corrections .after h.after (q.spacing.close depth ns)) ++
      [mark .atRule .stop ['}']]
  | _ => []

/-- The semicolon after a node, if one is needed and wanted there. -/
def separator (wanted : Bool) (n : Node) : List Fragment :=
  if n.needsSemicolon && wanted then emit n.owner [';'] else []

mutual

/-- The fragments of the node at a path, each with its path, where each node has a printer. -/
def placedNode (p : Path → Printer) (path : Path) (depth : Nat) (first : Bool) :
    Node → List PlacedFragment
  | .rule h ns =>
    ((p path).opening depth first (.rule h ns)).map (.mk path) ++
      (if h.mixin then [] else placedNodes p path 0 (depth + 1) false h.semicolon ns) ++
      ((p path).closing depth (.rule h ns)).map (.mk path)
  | .atRule h ns =>
    ((p path).opening depth first (.atRule h ns)).map (.mk path) ++
      placedNodes p path 0 (depth + 1) false h.semicolon ns ++
      ((p path).closing depth (.atRule h ns)).map (.mk path)
  | n => ((p path).node depth first n).map (.mk path)

/-- The fragments of nodes within the node at a path, the first of which has the given index there. -/
def placedNodes (p : Path → Printer) (path : Path) (index depth : Nat) (first semicolon : Bool) :
    List Node → List PlacedFragment
  | [] => []
  | n :: ns =>
    placedNode p (path ++ [index]) depth first n ++
      (separator (semicolon || !ns.isEmpty) n).map (.mk (path ++ [index])) ++
      placedNodes p path (index + 1) depth false semicolon ns

end

/-- The fragments of a style sheet, each with the path of its node, where each node has a printer and the
empty path stands for the style sheet. -/
def placedRoot (p : Path → Printer) (r : Root) : List PlacedFragment :=
  placedNodes p [] 0 0 true r.semicolon r.nodes ++
    (emit .root ((p []).lookUp .root r.corrections .after r.after [])).map (.mk [])

end Printer

/-! ### Paths -/

namespace Path

/-- A path that goes on from a child goes on from the parent. -/
theorem prefix_of_child {a b : Path} {i : Nat} (h : a ++ [i] <+: b) : a <+: b :=
  (List.prefix_append a [i]).trans h

/-- A path does not lead below one that goes on from it. -/
theorem not_isBelow_of_prefix {a b : Path} (h : a <+: b) : ¬ IsBelow a b :=
  fun hb => hb.2 (hb.1.eq_of_length_le h.length_le)

/-- A path goes on to one child of a node at most. -/
theorem child_unique {a b : Path} {i j : Nat} (hi : a ++ [i] <+: b) (hj : a ++ [j] <+: b) :
    i = j := by
  have h := (List.prefix_of_prefix_length_le hi hj (by simp)).eq_of_length (by simp)
  simpa using h

/-- What is below one child of a node is not below another. -/
theorem not_isBelow_of_ne {a b c : Path} {i j : Nat} (hij : i ≠ j) (hb : a ++ [i] <+: b)
    (hc : a ++ [j] <+: c) : ¬ IsBelow b c :=
  fun h => hij (child_unique hb (hc.trans h.1))

end Path

/-! ### Equations by what is within a node -/

namespace Node

/-- A walk enters a node, goes through the nodes within it and leaves it. -/
theorem walk_eq (path : Path) (n : Node) :
    n.walk path = .enter path n :: (walkAll path 0 n.inner ++ [.leave path n]) := by
  cases n with
  | rule h ns => cases hm : h.mixin <;> simp [walk, inner, hm, walkAll]
  | _ => simp [walk, inner, walkAll]

/-- The nodes within a frame are the frames of those within the node. -/
theorem inner_frame (n : Node) : n.frame.inner = frameAll n.inner := by
  cases n with
  | rule h ns => cases hm : h.mixin <;> simp [inner, frame, hm, frameAll]
  | _ => simp [inner, frame, frameAll]

/-- A frame has its start marked if the node does. -/
@[simp] theorem hasStart_frame (n : Node) : n.frame.hasStart = n.hasStart := by
  cases n <;> rfl

/-- A frame has its end marked if the node does. -/
@[simp] theorem hasStop_frame (n : Node) : n.frame.hasStop = n.hasStop := by
  cases n <;> rfl

end Node

namespace Printer

/-- A node is printed as what opens it, the nodes within it and what closes it. -/
theorem node_eq (q : Printer) (depth : Nat) (first : Bool) (n : Node) :
    q.node depth first n =
      q.opening depth first n ++ q.nodes (depth + 1) false n.innerSemicolon n.inner ++
        q.closing depth n := by
  cases n with
  | rule h ns =>
      cases hm : h.mixin <;>
        simp [node, opening, closing, Node.inner, Node.innerSemicolon, hm, nodes, block]
  | atRule h ns => simp [node, opening, closing, Node.inner, Node.innerSemicolon, block]
  | _ => simp [node, opening, closing, Node.inner, nodes]

/-- The fragments of a node with its own printer are those that open it, those of the nodes within
it and those that close it. -/
theorem placedNode_eq (p : Path → Printer) (path : Path) (depth : Nat) (first : Bool) (n : Node) :
    placedNode p path depth first n =
      ((p path).opening depth first n).map (.mk path) ++
        placedNodes p path 0 (depth + 1) false n.innerSemicolon n.inner ++
        ((p path).closing depth n).map (.mk path) := by
  cases n with
  | rule h ns =>
      cases hm : h.mixin <;> simp [placedNode, Node.inner, Node.innerSemicolon, hm, placedNodes]
  | atRule h ns => simp [placedNode, Node.inner, Node.innerSemicolon]
  | _ => simp [placedNode, opening, closing, Node.inner, placedNodes]

/-- Without their paths, the fragments are those that are printed. -/
theorem map_fragment_placedNodes (q : Printer) (ns : List Node) (path : Path)
    (index depth : Nat) (first semicolon : Bool) :
    (placedNodes (fun _ => q) path index depth first semicolon ns).map PlacedFragment.fragment =
      q.nodes depth first semicolon ns := by
  refine (Node.inner_induction
    (P := fun n => ∀ path depth first, (placedNode (fun _ => q) path depth first n).map
      PlacedFragment.fragment = q.node depth first n)
    (Q := fun ns => ∀ path index depth first semicolon,
      (placedNodes (fun _ => q) path index depth first semicolon ns).map PlacedFragment.fragment =
        q.nodes depth first semicolon ns)
    ?_ ?_ ?_).2 ns path index depth first semicolon
  · intro n ih path depth first
    simp [placedNode_eq, node_eq, ih, Function.comp_def]
  · simp [placedNodes, nodes]
  · intro n ns ihn ihns path index depth first semicolon
    simp [placedNodes, nodes, ihn, ihns, separator, Function.comp_def]

/-! ### The marks of a node -/

/-- Text that is emitted marks no boundary. -/
@[simp] theorem filterMap_boundary_emit (o : Owner) (t : Text) :
    (emit o t).filterMap Fragment.boundary = [] := by
  unfold emit
  split <;> rfl

/-- What opens a node marks its start, if that is marked, and nothing else. -/
theorem filterMap_boundary_opening (q : Printer) (depth : Nat) (first : Bool) (n : Node) :
    (q.opening depth first n).filterMap Fragment.boundary =
      if n.hasStart then [.start] else [] := by
  cases n with
  | rule h ns => cases hm : h.mixin <;> simp [opening, hm, mark, Node.hasStart]
  | _ => simp [opening, node, atRuleHead, declaration, comment, mark, Node.hasStart]

/-- What closes a node marks its end, if that is marked, and nothing else. -/
theorem filterMap_boundary_closing (q : Printer) (depth : Nat) (n : Node) :
    (q.closing depth n).filterMap Fragment.boundary = if n.hasStop then [.stop] else [] := by
  cases n with
  | rule h ns => cases hm : h.mixin <;> simp [closing, hm, mark, Node.hasStop]
  | _ => simp [closing, mark, Node.hasStop]

/-- A separator marks no boundary. -/
theorem filterMap_boundary_separator (wanted : Bool) (n : Node) :
    (separator wanted n).filterMap Fragment.boundary = [] := by
  unfold separator
  split <;> simp

/-! ### Marks and visits -/

/-- Fragments at a path mark their boundaries there. -/
theorem filterMap_mark?_map_mk (path : Path) (fs : List Fragment) :
    (fs.map (.mk path)).filterMap PlacedFragment.mark? =
      (fs.filterMap Fragment.boundary).map (path, ·) := by
  rw [List.filterMap_map, List.map_filterMap]
  rfl

/-- The marks in print are those of the walk. -/
theorem filterMap_mark?_placedNodes (p : Path → Printer) (ns : List Node) (path : Path)
    (index depth : Nat) (first semicolon : Bool) :
    (placedNodes p path index depth first semicolon ns).filterMap PlacedFragment.mark? =
      (Node.walkAll path index ns).filterMap Visit.mark? := by
  refine (Node.inner_induction
    (P := fun n => ∀ path depth first,
      (placedNode p path depth first n).filterMap PlacedFragment.mark? =
        (n.walk path).filterMap Visit.mark?)
    (Q := fun ns => ∀ path index depth first semicolon,
      (placedNodes p path index depth first semicolon ns).filterMap PlacedFragment.mark? =
        (Node.walkAll path index ns).filterMap Visit.mark?)
    ?_ ?_ ?_).2 ns path index depth first semicolon
  · intro n ih path depth first
    rw [placedNode_eq, Node.walk_eq]
    simp only [List.filterMap_append, List.filterMap_cons, filterMap_mark?_map_mk, ih,
      filterMap_boundary_opening, filterMap_boundary_closing]
    cases hs : n.hasStart <;> cases hp : n.hasStop <;> simp [Visit.mark?, hs, hp]
  · simp [placedNodes, Node.walkAll]
  · intro n ns ihn ihns path index depth first semicolon
    simp only [placedNodes, Node.walkAll, List.filterMap_append, ihn, ihns,
      filterMap_mark?_map_mk, filterMap_boundary_separator, List.map_nil, List.append_nil]

end Printer

/-- The marks of a walk do not depend on the texts of the nodes. -/
theorem Node.filterMap_mark?_walkAll_frameAll (ns : List Node) (path : Path) (index : Nat) :
    (walkAll path index (frameAll ns)).filterMap Visit.mark? =
      (walkAll path index ns).filterMap Visit.mark? := by
  refine (inner_induction
    (P := fun n => ∀ path, (n.frame.walk path).filterMap Visit.mark? =
      (n.walk path).filterMap Visit.mark?)
    (Q := fun ns => ∀ path index, (walkAll path index (frameAll ns)).filterMap Visit.mark? =
      (walkAll path index ns).filterMap Visit.mark?)
    ?_ ?_ ?_).2 ns path index
  · intro n ih path
    simp [walk_eq, inner_frame, List.filterMap_cons, Visit.mark?, ih]
  · simp [frameAll]
  · intro n ns ihn ihns path index
    simp [frameAll, walkAll, ihn, ihns]

/-! ### What is below a node -/

/-- The visits of a node are at its path or below it, those of a list of nodes are below the
children from the first index on. -/
theorem Node.paths_walk :
    (∀ (n : Node) (path : Path), ∀ v ∈ n.walk path, path <+: v.path) ∧
      ∀ (ns : List Node) (path : Path) (index : Nat), ∀ v ∈ walkAll path index ns,
        ∃ i, index ≤ i ∧ path ++ [i] <+: v.path := by
  refine inner_induction ?_ ?_ ?_
  · intro n ih path v hv
    simp only [walk_eq, List.mem_cons, List.mem_append, List.not_mem_nil, or_false] at hv
    obtain rfl | hv | rfl := hv
    · exact List.prefix_rfl
    · obtain ⟨i, -, hi⟩ := ih path 0 v hv
      exact Path.prefix_of_child hi
    · exact List.prefix_rfl
  · simp [walkAll]
  · intro n ns ihn ihns path index v hv
    rw [walkAll, List.mem_append] at hv
    obtain hv | hv := hv
    · exact ⟨index, le_rfl, ihn _ v hv⟩
    · obtain ⟨i, hi, hpath⟩ := ihns _ _ v hv
      exact ⟨i, by omega, hpath⟩

/-- The fragments of a node are at its path or below it, those of a list of nodes are below the
children from the first index on. -/
theorem Printer.paths_placed (p : Path → Printer) :
    (∀ (n : Node) (path : Path) (depth : Nat) (first : Bool),
      ∀ f ∈ placedNode p path depth first n, path <+: f.path) ∧
      ∀ (ns : List Node) (path : Path) (index depth : Nat) (first semicolon : Bool),
        ∀ f ∈ placedNodes p path index depth first semicolon ns,
          ∃ i, index ≤ i ∧ path ++ [i] <+: f.path := by
  refine Node.inner_induction ?_ ?_ ?_
  · intro n ih path depth first f hf
    simp only [placedNode_eq, List.mem_append, List.mem_map] at hf
    obtain (⟨_, _, rfl⟩ | hf) | ⟨_, _, rfl⟩ := hf
    · exact List.prefix_rfl
    · obtain ⟨i, -, hi⟩ := ih _ _ _ _ _ f hf
      exact Path.prefix_of_child hi
    · exact List.prefix_rfl
  · simp [placedNodes]
  · intro n ns ihn ihns path index depth first semicolon f hf
    simp only [placedNodes, List.mem_append, List.mem_map] at hf
    obtain (hf | ⟨_, _, rfl⟩) | hf := hf
    · exact ⟨index, le_rfl, ihn _ _ _ f hf⟩
    · exact ⟨index, le_rfl, List.prefix_rfl⟩
    · obtain ⟨i, hi, hpath⟩ := ihns _ _ _ _ _ f hf
      exact ⟨i, by omega, hpath⟩

/-! ### One mark for each boundary -/

/-- A visit marks a boundary of the node that is visited. -/
theorem Visit.path_of_mark? {v : Visit} {m : Path × Boundary} (h : v.mark? = some m) :
    m.1 = v.path := by
  cases v with
  | enter p n | leave p n =>
      rw [mark?] at h
      split at h
      · simp [← Option.some.inj h, path]
      · simp at h

/-- The marks of a node enclose those within it. -/
theorem Node.filterMap_mark?_walk (path : Path) (n : Node) :
    (n.walk path).filterMap Visit.mark? =
      (if n.hasStart then [(path, .start)] else []) ++
        (walkAll path 0 n.inner).filterMap Visit.mark? ++
        (if n.hasStop then [(path, .stop)] else []) := by
  rw [walk_eq, List.filterMap_cons, List.filterMap_append]
  cases hs : n.hasStart <;> cases hp : n.hasStop <;> simp [Visit.mark?, hs, hp]

/-- The marks within the node at a path are not its own. -/
theorem Node.ne_of_mem_marks_inner {path : Path} {index : Nat} {ns : List Node}
    {m : Path × Boundary} (hm : m ∈ (walkAll path index ns).filterMap Visit.mark?) :
    m.1 ≠ path := by
  obtain ⟨v, hv, hmark⟩ := List.mem_filterMap.1 hm
  obtain ⟨i, -, hi⟩ := paths_walk.2 ns path index v hv
  rw [← Visit.path_of_mark? hmark] at hi
  rintro rfl
  simpa using hi.length_le.trans_lt (Nat.lt_succ_self m.1.length)

/-- No boundary is marked twice. -/
theorem Node.nodup_marks (ns : List Node) (path : Path) (index : Nat) :
    ((walkAll path index ns).filterMap Visit.mark?).Nodup := by
  refine (inner_induction (P := fun n => ∀ path, ((n.walk path).filterMap Visit.mark?).Nodup)
    (Q := fun ns => ∀ path index, ((walkAll path index ns).filterMap Visit.mark?).Nodup)
    ?_ ?_ ?_).2 ns path index
  · intro n ih path
    rw [filterMap_mark?_walk, List.append_assoc, List.nodup_append, List.nodup_append]
    refine ⟨by split <;> simp, ⟨ih _ _, by split <;> simp, ?_⟩, ?_⟩
    · rintro m hm _ hstop rfl
      refine ne_of_mem_marks_inner hm ?_
      split at hstop <;> simp_all
    · rintro m hstart _ hm rfl
      obtain rfl : m = (path, .start) := by split at hstart <;> simp_all
      obtain hm | hstop := List.mem_append.1 hm
      · exact ne_of_mem_marks_inner hm rfl
      · split at hstop <;> simp at hstop
  · simp [walkAll]
  · intro n ns ihn ihns path index
    rw [walkAll, List.filterMap_append, List.nodup_append]
    refine ⟨ihn _, ihns _ _, ?_⟩
    rintro m hm _ hm' rfl
    obtain ⟨v, hv, hmark⟩ := List.mem_filterMap.1 hm
    obtain ⟨w, hw, hmark'⟩ := List.mem_filterMap.1 hm'
    obtain ⟨i, hi, hpath⟩ := paths_walk.2 ns path (index + 1) w hw
    rw [← Visit.path_of_mark? hmark', Visit.path_of_mark? hmark] at hpath
    have := Path.child_unique (paths_walk.1 n _ v hv) hpath
    omega

/-! ### The node of a fragment -/

namespace Node

/-- A path that goes on to a child of a node. -/
theorem at?_concat {ns : List Node} {path : Path} {n : Node} (h : at? ns path = some n)
    (i : Nat) : at? ns (path ++ [i]) = n.block?.bind (·[i]?) := by
  induction ns, path using at?.induct with
  | case1 ns => simp [at?] at h
  | case2 ns j =>
      have hj : ns[j]? = some n := by simpa [at?] using h
      simp only [List.cons_append, List.nil_append, at?, hj, Option.bind_eq_bind, Option.bind_some]
  | case3 ns j k p ih =>
      simp only [at?, Option.bind_eq_bind, Option.bind_eq_some_iff] at h
      obtain ⟨m, hm, b, hb, hn⟩ := h
      simp only [List.cons_append, at?, hm, hb, Option.bind_eq_bind, Option.bind_some]
      exact ih _ hn

/-- What is printed within a node is found below it. -/
theorem at?_inner {roots : List Node} {path : Path} {n : Node} (hn : at? roots path = some n)
    (i : Nat) (m : Node) (hm : n.inner[i]? = some m) : at? roots (path ++ [0 + i]) = some m := by
  rw [Nat.zero_add, at?_concat hn]
  cases n with
  | rule h ns =>
      cases hx : h.mixin with
      | true => simp [inner, hx] at hm
      | false => simpa [inner, hx, block?] using hm
  | atRule h ns => simpa [inner, block?] using hm
  | _ => simp [inner] at hm

/-- The first of some siblings is found at their index, and the others behind it. -/
theorem at?_siblings {roots : List Node} {path : Path} {index : Nat} {n : Node} {ns : List Node}
    (h : ∀ i m, (n :: ns)[i]? = some m → at? roots (path ++ [index + i]) = some m) :
    at? roots (path ++ [index]) = some n ∧
      ∀ i m, ns[i]? = some m → at? roots (path ++ [index + 1 + i]) = some m := by
  refine ⟨h 0 n rfl, fun i m hm => ?_⟩
  rw [Nat.add_assoc, Nat.add_comm 1 i]
  exact h (i + 1) m (by simpa using hm)

/-- A walk visits the nodes at the paths that it names. -/
theorem at?_of_mem_walkAll (roots : List Node) (ns : List Node) (path : Path) (index : Nat)
    (h : ∀ i m, ns[i]? = some m → at? roots (path ++ [index + i]) = some m) :
    ∀ v ∈ walkAll path index ns, at? roots v.path = some v.node := by
  refine (inner_induction
    (P := fun n => ∀ path, at? roots path = some n → ∀ v ∈ n.walk path,
      at? roots v.path = some v.node)
    (Q := fun ns => ∀ path index,
      (∀ i m, ns[i]? = some m → at? roots (path ++ [index + i]) = some m) →
        ∀ v ∈ walkAll path index ns, at? roots v.path = some v.node)
    ?_ ?_ ?_).2 ns path index h
  · intro n ih path hn v hv
    simp only [walk_eq, List.mem_cons, List.mem_append, List.not_mem_nil, or_false] at hv
    obtain rfl | hv | rfl := hv
    · exact hn
    · exact ih path 0 (at?_inner hn) v hv
    · exact hn
  · simp [walkAll]
  · intro n ns ihn ihns path index hsiblings v hv
    obtain ⟨hn, hns⟩ := at?_siblings hsiblings
    rw [walkAll, List.mem_append] at hv
    exact hv.elim (ihn _ hn v) (ihns _ _ hns v)

end Node

namespace Printer

/-- All fragments belong to an owner. -/
def AllOf (o : Owner) (fs : List Fragment) : Prop :=
  ∀ f ∈ fs, f.owner = some o

@[simp] theorem allOf_nil (o : Owner) : AllOf o [] := by
  simp [AllOf]

@[simp] theorem allOf_cons {o : Owner} {f : Fragment} {fs : List Fragment} :
    AllOf o (f :: fs) ↔ f.owner = some o ∧ AllOf o fs := by
  simp [AllOf]

/-- Fragments belong to an owner just if those in front and those behind do. -/
@[simp] theorem allOf_append {o : Owner} {fs gs : List Fragment} :
    AllOf o (fs ++ gs) ↔ AllOf o fs ∧ AllOf o gs := by
  simp [AllOf, or_imp, forall_and]

/-- What is emitted belongs to its owner. -/
@[simp] theorem allOf_emit (o : Owner) (t : Text) : AllOf o (emit o t) := by
  unfold emit
  split <;> simp

/-- What opens a node belongs to it. -/
theorem allOf_opening (q : Printer) (depth : Nat) (first : Bool) (n : Node) :
    AllOf n.owner (q.opening depth first n) := by
  cases n with
  | rule h ns => cases hm : h.mixin <;> simp [opening, hm, mark, Node.owner]
  | _ => simp [opening, node, atRuleHead, declaration, comment, mark, Node.owner]

/-- What closes a node belongs to it. -/
theorem allOf_closing (q : Printer) (depth : Nat) (n : Node) :
    AllOf n.owner (q.closing depth n) := by
  cases n with
  | rule h ns => cases hm : h.mixin <;> simp [closing, hm, mark, Node.owner]
  | _ => simp [closing, mark, Node.owner]

/-- The semicolon after a node belongs to it. -/
theorem allOf_separator (wanted : Bool) (n : Node) : AllOf n.owner (separator wanted n) := by
  unfold separator
  split <;> simp

/-- Every fragment of nodes belongs to the node at its path. -/
theorem owner_of_mem_placedNodes (p : Path → Printer) (roots : List Node) (ns : List Node)
    (path : Path) (index depth : Nat) (first semicolon : Bool)
    (h : ∀ i m, ns[i]? = some m → Node.at? roots (path ++ [index + i]) = some m) :
    ∀ f ∈ placedNodes p path index depth first semicolon ns,
      f.fragment.owner = (Node.at? roots f.path).map Node.owner := by
  refine (Node.inner_induction
    (P := fun n => ∀ path depth first, Node.at? roots path = some n →
      ∀ f ∈ placedNode p path depth first n,
        f.fragment.owner = (Node.at? roots f.path).map Node.owner)
    (Q := fun ns => ∀ path index depth first semicolon,
      (∀ i m, ns[i]? = some m → Node.at? roots (path ++ [index + i]) = some m) →
        ∀ f ∈ placedNodes p path index depth first semicolon ns,
          f.fragment.owner = (Node.at? roots f.path).map Node.owner)
    ?_ ?_ ?_).2 ns path index depth first semicolon h
  · intro n ih path depth first hn f hf
    simp only [placedNode_eq, List.mem_append, List.mem_map] at hf
    obtain (⟨g, hg, rfl⟩ | hf) | ⟨g, hg, rfl⟩ := hf
    · simp [hn, allOf_opening _ _ _ n g hg]
    · exact ih _ _ _ _ _ (Node.at?_inner hn) f hf
    · simp [hn, allOf_closing _ _ n g hg]
  · simp [placedNodes]
  · intro n ns ihn ihns path index depth first semicolon hsiblings f hf
    obtain ⟨hn, hns⟩ := Node.at?_siblings hsiblings
    simp only [placedNodes, List.mem_append, List.mem_map] at hf
    obtain (hf | ⟨g, hg, rfl⟩) | hf := hf
    · exact ihn _ _ _ hn f hf
    · simp [hn, allOf_separator _ n g hg]
    · exact ihns _ _ _ _ _ hns f hf

/-! ### Nesting -/

/-- What stands in front of the nodes within a node does not mark its end, and what stands after
them does not mark its start. -/
theorem boundary_of_mem_opening {q : Printer} {depth : Nat} {first : Bool} {n : Node}
    {f : Fragment} (hf : f ∈ q.opening depth first n) : f.boundary ≠ some .stop := by
  intro hb
  have h := List.mem_filterMap.2 ⟨f, hf, hb⟩
  rw [filterMap_boundary_opening] at h
  split at h <;> simp at h

/-- What closes a node does not mark a start. -/
theorem boundary_of_mem_closing {q : Printer} {depth : Nat} {n : Node} {f : Fragment}
    (hf : f ∈ q.closing depth n) : f.boundary ≠ some .start := by
  intro hb
  have h := List.mem_filterMap.2 ⟨f, hf, hb⟩
  rw [filterMap_boundary_closing] at h
  split at h <;> simp at h

/-- A separator marks nothing. -/
theorem boundary_of_mem_separator {wanted : Bool} {n : Node} {f : Fragment}
    (hf : f ∈ separator wanted n) : f.boundary = none := by
  cases hb : f.boundary with
  | none => rfl
  | some b =>
      have h := List.mem_filterMap.2 ⟨f, hf, hb⟩
      simp [filterMap_boundary_separator] at h

/-- Fragments of one node may stand in any order. -/
theorem pairwise_map_mk (path : Path) (fs : List Fragment) :
    (fs.map (PlacedFragment.mk path)).Pairwise PlacedFragment.MayPrecede :=
  List.pairwise_map.2 (List.pairwise_of_forall fun _ _ =>
    ⟨fun _ => Path.not_isBelow_of_prefix List.prefix_rfl, fun _ => Path.not_isBelow_of_prefix List.prefix_rfl⟩)

/-- The fragments of a node enclose those within it. -/
theorem pairwise_placedNode (p : Path → Printer) (path : Path) (depth : Nat) (first : Bool)
    (n : Node) (h : (placedNodes p path 0 (depth + 1) false n.innerSemicolon n.inner).Pairwise
      PlacedFragment.MayPrecede) :
    (placedNode p path depth first n).Pairwise PlacedFragment.MayPrecede := by
  have child := (paths_placed p).2 n.inner path 0 (depth + 1) false n.innerSemicolon
  rw [placedNode_eq, List.append_assoc, List.pairwise_append, List.pairwise_append]
  refine ⟨pairwise_map_mk path _, ⟨h, pairwise_map_mk path _, ?_⟩, ?_⟩
  · intro f hf g hg
    obtain ⟨i, -, hi⟩ := child f hf
    obtain ⟨g, hclosing, rfl⟩ := List.mem_map.1 hg
    exact ⟨fun _ => Path.not_isBelow_of_prefix (Path.prefix_of_child hi),
      fun hb => absurd hb (boundary_of_mem_closing hclosing)⟩
  · intro f hf g hg
    obtain ⟨f, hopening, rfl⟩ := List.mem_map.1 hf
    refine ⟨fun hb => absurd hb (boundary_of_mem_opening hopening), fun _ => ?_⟩
    obtain hg | hg := List.mem_append.1 hg
    · obtain ⟨i, -, hi⟩ := child g hg
      exact Path.not_isBelow_of_prefix (Path.prefix_of_child hi)
    · obtain ⟨g, -, rfl⟩ := List.mem_map.1 hg
      exact Path.not_isBelow_of_prefix List.prefix_rfl

/-- The fragments of nodes are nested. -/
theorem pairwise_placedNodes (p : Path → Printer) (ns : List Node) (path : Path)
    (index depth : Nat) (first semicolon : Bool) :
    (placedNodes p path index depth first semicolon ns).Pairwise PlacedFragment.MayPrecede := by
  refine (Node.inner_induction
    (P := fun n => ∀ path depth first,
      (placedNode p path depth first n).Pairwise PlacedFragment.MayPrecede)
    (Q := fun ns => ∀ path index depth first semicolon,
      (placedNodes p path index depth first semicolon ns).Pairwise PlacedFragment.MayPrecede)
    ?_ ?_ ?_).2 ns path index depth first semicolon
  · exact fun n ih path depth first => pairwise_placedNode p path depth first n (ih _ _ _ _ _)
  · simp [placedNodes]
  · intro n ns ihn ihns path index depth first semicolon
    have node := (paths_placed p).1 n (path ++ [index]) depth first
    rw [placedNodes, List.append_assoc, List.pairwise_append, List.pairwise_append]
    refine ⟨ihn _ _ _, ⟨pairwise_map_mk _ _, ihns _ _ _ _ _, ?_⟩, ?_⟩
    · -- the semicolon of the first node and the fragments of the others
      intro f hf g hg
      obtain ⟨f, -, rfl⟩ := List.mem_map.1 hf
      obtain ⟨i, hi, hpath⟩ := (paths_placed p).2 _ _ _ _ _ _ g hg
      have hne : index ≠ i := by omega
      exact ⟨fun _ => Path.not_isBelow_of_ne hne.symm hpath List.prefix_rfl,
        fun _ => Path.not_isBelow_of_ne hne List.prefix_rfl hpath⟩
    · intro f hf g hg
      obtain hg | hg := List.mem_append.1 hg
      · obtain ⟨g, hsep, rfl⟩ := List.mem_map.1 hg
        refine ⟨fun _ => ?_, fun hb => ?_⟩
        · exact Path.not_isBelow_of_prefix (node f hf)
        · simp [boundary_of_mem_separator hsep] at hb
      · obtain ⟨i, hi, hpath⟩ := (paths_placed p).2 _ _ _ _ _ _ g hg
        have hne : index ≠ i := by omega
        exact ⟨fun _ => Path.not_isBelow_of_ne hne.symm hpath (node f hf),
          fun _ => Path.not_isBelow_of_ne hne (node f hf) hpath⟩

/-- **Boundaries mirror the tree.** Whatever printers the nodes of a style sheet have, the fragments that
mark boundaries are the visits of a walk that do, in the same order, and none is marked twice. The
visits are at the nodes that their paths lead to, and so are the fragments. All that is printed for the nodes
within a node stands behind its start and in front of its end. The marks depend on nothing but the
kinds of the nodes, and with one printer for all nodes the fragments are those of the style sheet. -/
theorem root_boundaries (p : Path → Printer) (r : Root) :
    (placedRoot p r).filterMap PlacedFragment.mark? = r.walk.filterMap Visit.mark? ∧
      (r.walk.filterMap Visit.mark?).Nodup ∧
      (∀ v ∈ r.walk, Node.at? r.nodes v.path = some v.node) ∧
      (∀ f ∈ placedRoot p r, f.fragment.owner = r.ownerAt? f.path) ∧
      (placedRoot p r).Pairwise PlacedFragment.MayPrecede ∧
      ({ nodes := Node.frameAll r.nodes } : Root).walk.filterMap Visit.mark? =
        r.walk.filterMap Visit.mark? ∧
      ∀ q, (placedRoot (fun _ => q) r).map PlacedFragment.fragment = q.root r := by
  have top (i : Nat) (n : Node) (hn : r.nodes[i]? = some n) :
      Node.at? r.nodes ([] ++ [0 + i]) = some n := by
    simpa [Node.at?] using hn
  refine ⟨?_, Node.nodup_marks _ _ _, Node.at?_of_mem_walkAll _ _ _ _ top, fun f hf => ?_, ?_,
    Node.filterMap_mark?_walkAll_frameAll _ _ _, fun q => ?_⟩
  · rw [placedRoot, List.filterMap_append, filterMap_mark?_placedNodes, filterMap_mark?_map_mk,
      filterMap_boundary_emit, List.map_nil, List.append_nil, Root.walk]
  · obtain hf | hf := List.mem_append.1 hf
    · obtain ⟨i, -, hi⟩ := (paths_placed p).2 _ _ _ _ _ _ f hf
      have hne : f.path ≠ [] := fun h => by simp [h] at hi
      rw [Root.ownerAt?, if_neg hne]
      exact owner_of_mem_placedNodes p r.nodes r.nodes [] 0 0 true r.semicolon top f hf
    · obtain ⟨g, hg, rfl⟩ := List.mem_map.1 hf
      simpa [Root.ownerAt?] using allOf_emit _ _ g hg
  · refine List.pairwise_append.2 ⟨pairwise_placedNodes p _ _ _ _ _ _, pairwise_map_mk _ _, ?_⟩
    intro f _ g hg
    obtain ⟨g, hafter, rfl⟩ := List.mem_map.1 hg
    refine ⟨fun _ => Path.not_isBelow_of_prefix List.nil_prefix, fun hb => ?_⟩
    simpa using List.mem_filterMap.2 ⟨g, hafter, hb⟩
  · simp [placedRoot, root, map_fragment_placedNodes, Function.comp_def]

/-- A mixin has a start only, and what is below it has none. -/
example :
    ({ nodes := [.rule { mixin := true } [.declaration {}], .rule {} [.declaration {}]] } :
      Root).walk.filterMap Visit.mark? =
      [([0], .start), ([1], .start), ([1, 0], .start), ([1], .stop)] := by
  rfl

end Printer

end StyleBlocks.Sheet
