import StyleBlocks.Block.Relocation
import StyleBlocks.Sheet.Fragment
import StyleBlocks.Sheet.Parse

/-!
# Renderings

A style sheet is printed as it is, or moved to its host first and then printed with its corrections.
In both ways the fragments of a node come from its texts in the same order, each text written in a
form that depends on nothing but the text, the place where it stands and the starts of lines that
belong to it. A `Rendering` is a way of printing of which this holds.

## Main definitions

* `Rendering.plain`: printing as it is.
* `Rendering.relocated`: printing with the corrections that a relocation records.
-/

namespace StyleBlocks.Sheet

open Relocation (Ownership)

/-- How a text that stands at an offset is written. -/
abbrev Write :=
  Ownership → Nat → Text → Text

/-- The fragments of the head of a block that starts at an offset, its opening brace included. -/
def Head.fragments (write : Write) (start : Nat) : Head → List Fragment
  | .rule h =>
    Printer.emit .rule
        (write .lineStart (start - Relocation.sizeOf? h.before) (h.before.getD [])) ++
      [Printer.mark .rule .start (write .inner start h.selector)] ++
      Printer.emit .rule
        (write .inner (start + Text.byteSize h.selector) (h.between.getD []) ++ ['{'])
  | .atRule h =>
    let nameEnd := start + 1 + Text.byteSize h.name
    let paramsStart := nameEnd + Relocation.sizeOf? h.afterName
    Printer.emit .atRule
        (write .lineStart (start - Relocation.sizeOf? h.before) (h.before.getD [])) ++
      (Printer.mark .atRule .start ('@' :: h.name) ::
        (Printer.emit .atRule (write .inner nameEnd (h.afterName.getD [])) ++
          Printer.emit .atRule (write .inner paramsStart h.params))) ++
      Printer.emit .atRule
        (write .inner (paramsStart + Text.byteSize h.params) (h.between.getD []) ++ ['{'])

/-- A head has all the raws that stand in front of its brace. -/
def Head.IsComplete : Head → Prop
  | .rule h => h.mixin = false ∧ h.before.isSome ∧ h.between.isSome
  | .atRule h => h.before.isSome ∧ h.afterName.isSome ∧ h.between.isSome

/-- What the block of a head belongs to. -/
def Head.owner : Head → Owner
  | .rule _ => .rule
  | .atRule _ => .atRule

/-- A **rendering**: something done to nodes before they are printed, and a printer, such that every
text of a node that knows its place is written as `write` says. -/
structure Rendering where
  /-- The printer. -/
  printer : Printer
  /-- What is done to a node before it is printed. -/
  move : Node → Node
  /-- How texts are written. -/
  write : Write
  needsSemicolon_move (n : Node) : (move n).needsSemicolon = n.needsSemicolon
  owner_move (n : Node) : (move n).owner = n.owner
  node_close (b : OpenBlock) (hb : b.head.IsComplete) (lines : LineMap) (body : Body)
    (stop depth : Nat) (first : Bool) :
    printer.node depth first (move (b.close lines body stop)) =
      b.head.fragments write b.start ++
        printer.nodes (depth + 1) false body.semicolon (body.nodes.reverse.map move) ++
        Printer.emit b.head.owner
          (write .inner (stop - (1 + Text.byteSize body.pending)) body.pending) ++
        [Printer.mark b.head.owner .stop ['}']]
  node_mixin (selector before between : Text) (a : Range) (depth : Nat) (first : Bool) :
    printer.node depth first (move (.rule
      { selector := selector, mixin := true, before := some before, between := some between,
        source := some a } [])) =
      Printer.emit .rule (write .lineStart (a.span.start - Text.byteSize before) before) ++
        [Printer.mark .rule .start (write .inner a.span.start selector)] ++
        Printer.emit .rule (write .inner (a.span.start + Text.byteSize selector) between)
  node_atStatement (name params before afterName between : Text) (a : Range) (depth : Nat)
    (first : Bool) :
    printer.node depth first (move (.atStatement
      { name := name, params := params, before := some before, afterName := some afterName,
        between := some between, source := some a })) =
      Printer.emit .atRule (write .lineStart (a.span.start - Text.byteSize before) before) ++
        (Printer.mark .atRule .start ('@' :: name) ::
          (Printer.emit .atRule (write .inner (a.span.start + 1 + Text.byteSize name) afterName) ++
            Printer.emit .atRule (write .inner
              (a.span.start + 1 + Text.byteSize name + Text.byteSize afterName) params))) ++
        Printer.emit .atRule (write .inner (a.span.start + 1 + Text.byteSize name +
          Text.byteSize afterName + Text.byteSize params) between)
  node_declaration (prop value before between after : Text) (a : Range) (depth : Nat)
    (first : Bool) :
    printer.node depth first (move (.declaration
      { prop := prop, value := value, before := some before, between := some between,
        after := some after, source := some a })) =
      Printer.emit .declaration (write .lineStart (a.span.start - Text.byteSize before) before) ++
        (Printer.mark .declaration .start (write .inner a.span.start prop) ::
          (Printer.emit .declaration (write .inner (a.span.start + Text.byteSize prop) between) ++
            Printer.emit .declaration (write .inner
              (a.span.start + Text.byteSize prop + Text.byteSize between) value) ++
            Printer.emit .declaration (write .inner
              (a.span.start + Text.byteSize prop + Text.byteSize between + Text.byteSize value)
              after)))
  node_comment (text before : Text) (inline : Bool) (a : Range) (depth : Nat) (first : Bool) :
    printer.node depth first (move (.comment
      { text := text, inline := inline, before := some before, source := some a })) =
      Printer.emit .comment (write .lineStart (a.span.start - Text.byteSize before) before) ++
        Printer.emit .comment
          (if inline then '/' :: '/' :: write .inner (a.span.start + 2) text
            else '/' :: '*' :: write .inner (a.span.start + 2) text ++ ['*', '/'])

namespace Rendering

/-- Printing as it is: every text is written as itself. -/
def plain : Rendering where
  printer := {}
  move := id
  write := fun _ _ t => t
  needsSemicolon_move _ := rfl
  owner_move _ := rfl
  node_close b hb lines body stop depth first := by
    obtain ⟨head, start, brace, siblings⟩ := b
    cases head with
    | rule h =>
        obtain ⟨hm, hb, hbt⟩ := hb
        obtain ⟨before, hb⟩ := Option.isSome_iff_exists.1 hb
        obtain ⟨between, hbt⟩ := Option.isSome_iff_exists.1 hbt
        simp [OpenBlock.close, Printer.node, Printer.lookUp, Overrides.none, hm, hb, hbt,
          Head.fragments, Head.owner, Printer.block]
    | atRule h =>
        obtain ⟨hb, ha, hbt⟩ := hb
        obtain ⟨before, hb⟩ := Option.isSome_iff_exists.1 hb
        obtain ⟨afterName, ha⟩ := Option.isSome_iff_exists.1 ha
        obtain ⟨between, hbt⟩ := Option.isSome_iff_exists.1 hbt
        simp [OpenBlock.close, Printer.node, Printer.lookUp, Overrides.none, hb, ha, hbt,
          Head.fragments, Head.owner, Printer.block, Printer.atRuleHead]
  node_mixin _ _ _ _ _ _ := by simp [Printer.node, Printer.lookUp, Overrides.none]
  node_atStatement _ _ _ _ _ _ _ _ := by
    simp [Printer.node, Printer.lookUp, Overrides.none, Printer.atRuleHead]
  node_declaration _ _ _ _ _ _ _ _ := by
    simp [Printer.node, Printer.lookUp, Overrides.none, Printer.declaration]
  node_comment _ _ _ _ _ _ := by
    simp [Printer.node, Printer.lookUp, Overrides.none, Printer.comment]

end Rendering

/-! ### Corrections -/

@[simp] theorem span_range (m : LineMap) (s : Span) : (m.range s).span = s := rfl

@[simp] theorem sizeOf?_some (t : Text) : Relocation.sizeOf? (some t) = Text.byteSize t := rfl

/-- Nodes are moved one by one. -/
theorem nodes_eq_map (r : Relocation) (ns : List Node) : r.nodes ns = ns.map r.node := by
  induction ns with
  | nil => rfl
  | cons n ns ih => rw [Relocation.nodes, ih, List.map_cons]

section

variable (r : Relocation) {key k : RawKey} {raw : Text} {start : Nat} {o : Ownership}
  {cs : Corrections}

/-- Recording a text says nothing about other texts. -/
@[simp] theorem find?_record_of_ne (h : k ≠ key) :
    (r.record key raw start o cs).find? k = cs.find? k := by
  simp only [Relocation.record]
  split
  · rfl
  · simp [h]

/-- A correction that is recorded leaves those with other names as they are. -/
@[simp] theorem get?_record_of_ne (h : k ≠ key) (t : Text) :
    (r.record key raw start o cs).get? k t = cs.get? k t := by
  simp [Corrections.get?, find?_record_of_ne r h]

/-- A text that was recorded, and for which nothing had been recorded before, is printed indented.
-/
theorem getD_get?_record (h : cs.find? key = none) :
    ((r.record key raw start o cs).get? key raw).getD raw = r.reindent raw start o := by
  simp only [Relocation.record]
  split
  · next heq => simp [Corrections.get?, h, heq]
  · simp [Corrections.get?]

end

/-- Printing with the corrections that a relocation records: every text is written indented. -/
def Rendering.relocated (r : Relocation) : Rendering where
  printer := { overrides := .corrected }
  move := r.node
  write := fun o start raw => r.reindent raw start o
  needsSemicolon_move n := by
    cases n with
    | rule h ns =>
        simp only [Relocation.node, Relocation.ruleHead]
        split <;> rfl
    | _ => rfl
  owner_move n := by cases n <;> rfl
  node_close b hb lines body stop depth first := by
    obtain ⟨head, start, brace, siblings⟩ := b
    cases head with
    | rule h =>
        obtain ⟨hm, hb, hbt⟩ := hb
        obtain ⟨before, hb⟩ := Option.isSome_iff_exists.1 hb
        obtain ⟨between, hbt⟩ := Option.isSome_iff_exists.1 hbt
        simp [OpenBlock.close, Relocation.node, Relocation.ruleHead, Relocation.ruleCorrections,
          Relocation.recordBefore, Relocation.recordAfter, Relocation.record?, Printer.node,
          Printer.lookUp, Overrides.corrected, getD_get?_record, hm, hb, hbt, Head.fragments,
          Head.owner, Printer.block, nodes_eq_map]
    | atRule h =>
        obtain ⟨hb, ha, hbt⟩ := hb
        obtain ⟨before, hb⟩ := Option.isSome_iff_exists.1 hb
        obtain ⟨afterName, ha⟩ := Option.isSome_iff_exists.1 ha
        obtain ⟨between, hbt⟩ := Option.isSome_iff_exists.1 hbt
        simp [OpenBlock.close, Relocation.node, Relocation.atRuleHead, Relocation.atRuleCorrections,
          Relocation.recordBefore, Relocation.recordAfter, Relocation.record?, Printer.node,
          Printer.lookUp, Overrides.corrected, getD_get?_record, hb, ha, hbt, Head.fragments,
          Head.owner, Printer.block, Printer.atRuleHead, nodes_eq_map]
  node_mixin _ _ _ _ _ _ := by
    simp [Relocation.node, Relocation.ruleHead, Relocation.ruleCorrections, Relocation.recordBefore,
      Relocation.recordAfter, Relocation.record?, Printer.node, Printer.lookUp, Overrides.corrected,
      getD_get?_record]
  node_atStatement _ _ _ _ _ _ _ _ := by
    simp [Relocation.node, Relocation.atRuleHead, Relocation.atRuleCorrections,
      Relocation.recordBefore, Relocation.record?, Printer.node, Printer.lookUp,
      Overrides.corrected, getD_get?_record, Printer.atRuleHead]
  node_declaration _ _ _ _ _ _ _ _ := by
    simp [Relocation.node, Relocation.declaration, Relocation.declarationCorrections,
      Relocation.recordBefore, Relocation.record?, Printer.node, Printer.lookUp,
      Overrides.corrected, getD_get?_record, Printer.declaration]
  node_comment _ _ _ _ _ _ := by
    simp [Relocation.node, Relocation.comment, Relocation.commentCorrections,
      Relocation.recordBefore, Relocation.record?, Printer.node, Printer.lookUp,
      Overrides.corrected, getD_get?_record, Printer.comment]

end StyleBlocks.Sheet
