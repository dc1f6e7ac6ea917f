import StyleBlocks.Block.Relocation
import StyleBlocks.Proofs.Checked.Access
import StyleBlocks.Proofs.Template.Layout

/-!
# Relocation with checked access

Lines are counted in numbers that do not go below zero: the lines in front of the content are one less than
the line it starts on, and a hole has as many line breaks as the line it ends on is behind the line it
starts on. Literal parts stand one behind the other, so neither difference is taken the wrong way round.

## Main definitions

* `Checked.IsForward`: the holes of a relocation end behind where they start.

## Main results

* `Checked.root_eq`: moving a style sheet to the host does not fault.
* `Checked.isForward_of_laid`: the relocation for a template whose parts are laid is forward.
-/

namespace StyleBlocks.Checked

open Sheet Relocation

/-! ### Places -/

section

variable (r : StyleBlocks.Relocation)

/-- Adds a hole to what the holes in front of it add up to. -/
def addShift (t : Tally) (s : Shift) : Option Tally := do
  let lines ← sub s.stop.line s.start.line
  return { t.add s with lines := t.lines + lines }

/-- The offset and the position in the host of a place in the normalized text. -/
def place (offset : Nat) (p : Position) : Option (Nat × Position) := do
  let above ← sub r.position.line 1
  let tally ← (r.shifts.filter fun s => s.localEnd ≤ offset).foldlM addShift
    { bytes := 0
      lines := (above + r.config.frontLines : Nat)
      line := r.position.line
      columns := (r.position.column : Int) - 1 }
  let line := Word.ofInt (p.line + tally.lines)
  let column : Int := p.column + r.config.indentations.width p.line
  let column := Word.signed (if line = tally.line then column + tally.columns else column)
  let byte := Word.signed (offset + r.offset + r.config.frontBytes + tally.bytes +
    r.config.indentations.cumulative p.line)
  return (byte.toNat, { line := line, column := (max column 1).toNat })

/-- The range in the host of a range in the normalized text. -/
def placeRange (a : Range) : Option Range := do
  let start ← place r a.span.start a.start
  let stop ← place r a.span.stop a.stop
  return { span := ⟨start.1, stop.1⟩, start := start.2, stop := stop.2 }

/-! ### Indentation -/

/-- A text that starts at an offset of the normalized text, with the indentation put back. -/
def reindent (raw : Text) (start : Nat) (o : Ownership) : Option Text := do
  let first := (← position r.lines start).line
  let segments := Text.lines raw
  let last ← sub segments.length 1
  let front (k : Nat) : Option Text :=
    if k = 0 ∧ (o = .inner ∨ ¬ r.lines.isLineStart start) then none
    else if o = .trailing ∧ k ≠ 0 ∧ k = last then r.config.indentations.trailing
    else r.config.indentations.line? (first + k)
  return Text.joinLines (segments.zipIdx.map fun l => (front l.2).getD [] ++ l.1)

/-- Records the form of a text with its indentation, if that differs from the text. -/
def record (key : RawKey) (raw : Text) (start : Nat) (o : Ownership) (cs : Corrections) :
    Option Corrections := do
  let corrected ← reindent r raw start o
  return if corrected = raw then cs else cs.insert key ⟨raw, corrected⟩

/-- Records a raw that may be missing. -/
def record? (key : RawKey) (raw : Option Text) (start : Nat) (o : Ownership) (cs : Corrections) :
    Option Corrections :=
  match raw with
  | some t => record r key t start o cs
  | none => some cs

/-- Records what stands in front of a node that starts at an offset. -/
def recordBefore (before : Option Text) (start : Nat) (cs : Corrections) : Option Corrections :=
  record? r .before before (start - sizeOf? before) .lineStart cs

/-- Records what stands in front of a closing brace that ends at an offset. -/
def recordAfter (after : Option Text) (stop : Nat) (cs : Corrections) : Option Corrections :=
  record? r .after after (stop - (1 + sizeOf? after)) .inner cs

/-! ### Nodes -/

/-- The head of a rule, moved to the host. -/
def ruleHead (h : RuleHead) : Option RuleHead := do
  match h.source with
  | none => return h
  | some a =>
    let selectorEnd := a.span.start + Text.byteSize h.selector
    let cs ← recordBefore r h.before a.span.start ∅
    let cs ← record r .value h.selector a.span.start .inner cs
    let cs ← record? r .between h.between selectorEnd .inner cs
    let cs ← recordAfter r h.after a.span.stop cs
    return { h with source := some (← placeRange r a), corrections := cs }

/-- The head of an at-rule, moved to the host; `hasBlock` tells if it has a block. -/
def atRuleHead (hasBlock : Bool) (h : AtRuleHead) : Option AtRuleHead := do
  match h.source with
  | none => return h
  | some a =>
    let nameEnd := a.span.start + 1 + Text.byteSize h.name
    let paramsStart := nameEnd + sizeOf? h.afterName
    let cs ← recordBefore r h.before a.span.start ∅
    let cs ← record? r .afterName h.afterName nameEnd .inner cs
    let cs ← record r .value h.params paramsStart .inner cs
    let cs ← record? r .between h.between (paramsStart + Text.byteSize h.params) .inner cs
    let cs ← if hasBlock then recordAfter r h.after a.span.stop cs else some cs
    return { h with source := some (← placeRange r a), corrections := cs }

/-- A declaration, moved to the host. -/
def declaration (d : Declaration) : Option Declaration := do
  match d.source with
  | none => return d
  | some a =>
    let propEnd := a.span.start + Text.byteSize d.prop
    let valueStart := propEnd + sizeOf? d.between
    let cs ← recordBefore r d.before a.span.start ∅
    let cs ← record r .prop d.prop a.span.start .inner cs
    let cs ← record? r .between d.between propEnd .inner cs
    let cs ← record r .value d.value valueStart .inner cs
    let cs ← record? r .after d.after (valueStart + Text.byteSize d.value) .inner cs
    return { d with source := some (← placeRange r a), corrections := cs }

/-- A comment, moved to the host. -/
def comment (c : Comment) : Option Comment := do
  match c.source with
  | none => return c
  | some a =>
    let cs ← recordBefore r c.before a.span.start ∅
    let cs ← record r .value c.text (a.span.start + 2) .inner cs
    return { c with source := some (← placeRange r a), corrections := cs }

mutual

/-- A node and all nodes below it, moved to the host. -/
def node : Node → Option Node
  | .rule h ns => do return .rule (← ruleHead r h) (← nodes ns)
  | .atRule h ns => do return .atRule (← atRuleHead r true h) (← nodes ns)
  | .atStatement h => do return .atStatement (← atRuleHead r false h)
  | .declaration d => do return .declaration (← declaration r d)
  | .comment c => do return .comment (← comment r c)

/-- Nodes and all nodes below them, moved to the host. -/
def nodes : List Node → Option (List Node)
  | [] => some []
  | n :: ns => do return (← node n) :: (← nodes ns)

end

/-- A style sheet, moved to the host. -/
def root (s : Root) : Option Root := do
  let cs ← record? r .after s.after (r.lines.size - sizeOf? s.after) .trailing ∅
  let ns ← nodes r s.nodes
  let source ← match s.source with
    | some a => (placeRange r a).map some
    | none => some none
  return { s with nodes := ns, source := source, corrections := cs }

end

/-! ### Moving to the host does not fault -/

/-- A relocation is **forward** if its content starts on a line and each hole ends on the line it starts
on or on a later one. -/
structure IsForward (r : StyleBlocks.Relocation) : Prop where
  lines : IsAscending r.lines
  line_pos : 1 ≤ r.position.line
  shifts : ∀ s ∈ r.shifts, s.start.line ≤ s.stop.line

section

variable {r : StyleBlocks.Relocation}

/-- Holes that do not end in front of where they start are added up, on top of any number of lines. -/
theorem foldlM_addShift {ss : List Shift} (h : ∀ s ∈ ss, s.start.line ≤ s.stop.line) (t : Tally)
    (n : Int) :
    ss.foldlM addShift { t with lines := n + t.lines } =
      some { ss.foldl Tally.add t with lines := n + (ss.foldl Tally.add t).lines } := by
  induction ss generalizing t with
  | nil => rfl
  | cons s ss ih =>
      obtain ⟨hs, hss⟩ := List.forall_mem_cons.1 h
      have hlines : n + t.lines + (s.stop.line - s.start.line : Nat) = n + (t.add s).lines := by
        simp only [Tally.add]
        omega
      have hadd : addShift { t with lines := n + t.lines } s =
          some { t.add s with lines := n + (t.add s).lines } := by
        rw [addShift, sub_of_le hs, ← hlines]
        rfl
      rw [List.foldlM_cons, hadd]
      exact ih hss (t.add s)

/-- **Placing an offset does not fault.** -/
theorem place_eq (h : IsForward r) (offset : Nat) (p : Position) :
    place r offset p = some (r.place offset p) := by
  have hshifts : ∀ s ∈ r.shifts.filter fun s => s.localEnd ≤ offset, s.start.line ≤ s.stop.line :=
    fun s hs => h.shifts s (List.mem_filter.1 hs).1
  have htally := foldlM_addShift hshifts
    { bytes := 0, lines := 0, line := r.position.line, columns := (r.position.column : Int) - 1 }
    (r.position.line - 1 + r.config.frontLines : Nat)
  have hline : r.hostLine offset p = Word.ofInt (p.line +
      ((r.position.line - 1 + r.config.frontLines : Nat) + (r.tally offset).lines)) := by
    have := h.line_pos
    rw [hostLine]
    congr 1
    omega
  simp only [Int.add_zero] at htally
  simp only [place, sub_of_le h.line_pos, htally, Option.bind_eq_bind, Option.bind_some,
    StyleBlocks.Relocation.place, hostByte, hostColumn, hline, tally]
  rfl

/-- A range is placed without a fault. -/
theorem placeRange_eq (h : IsForward r) (a : Range) : placeRange r a = some (r.range a) := by
  simp [placeRange, StyleBlocks.Relocation.range, place_eq h]

/-- **Putting indentation back does not fault.** -/
theorem reindent_eq (h : IsForward r) (raw : Text) (start : Nat) (o : Ownership) :
    reindent r raw start o = some (r.reindent raw start o) := by
  have hpos := List.length_pos_iff.2 (Text.lines_ne_nil raw)
  have hlast : ∀ k, k = (Text.lines raw).length - 1 ↔ k + 1 = (Text.lines raw).length := by omega
  simp only [reindent, position_eq h.lines, sub_of_le hpos, Option.bind_eq_bind, Option.bind_some,
    hlast, Nat.succ_eq_add_one, Nat.zero_add]
  rfl

/-- A text is recorded without a fault. -/
@[simp] theorem record_eq (h : IsForward r) (key : RawKey) (raw : Text) (start : Nat) (o : Ownership)
    (cs : Corrections) : record r key raw start o cs = some (r.record key raw start o cs) := by
  rw [record, reindent_eq h]
  rfl

/-- A raw that may be missing is recorded without a fault. -/
theorem record?_eq (h : IsForward r) (key : RawKey) (raw : Option Text) (start : Nat) (o : Ownership)
    (cs : Corrections) : record? r key raw start o cs = some (r.record? key raw start o cs) := by
  cases raw with
  | none => rfl
  | some raw => exact record_eq h key raw start o cs

/-- The head of a rule is moved without a fault. -/
theorem ruleHead_eq (h : IsForward r) (head : RuleHead) :
    ruleHead r head = some (r.ruleHead head) := by
  cases hs : head.source <;>
    simp [ruleHead, StyleBlocks.Relocation.ruleHead, hs, recordBefore, recordAfter, record_eq h,
      record?_eq h, placeRange_eq h, ruleCorrections, StyleBlocks.Relocation.recordBefore,
      StyleBlocks.Relocation.recordAfter]

/-- The head of an at-rule is moved without a fault. -/
theorem atRuleHead_eq (h : IsForward r) (hasBlock : Bool) (head : AtRuleHead) :
    atRuleHead r hasBlock head = some (r.atRuleHead hasBlock head) := by
  cases hs : head.source <;> cases hasBlock <;>
    simp [atRuleHead, StyleBlocks.Relocation.atRuleHead, hs, recordBefore, recordAfter, record_eq h,
      record?_eq h, placeRange_eq h, atRuleCorrections, StyleBlocks.Relocation.recordBefore,
      StyleBlocks.Relocation.recordAfter]

/-- A declaration is moved without a fault. -/
theorem declaration_eq (h : IsForward r) (d : Declaration) :
    declaration r d = some (r.declaration d) := by
  cases hs : d.source <;>
    simp [declaration, StyleBlocks.Relocation.declaration, hs, recordBefore, record_eq h, record?_eq h,
      placeRange_eq h, declarationCorrections, StyleBlocks.Relocation.recordBefore]

/-- A comment is moved without a fault. -/
theorem comment_eq (h : IsForward r) (c : Comment) : comment r c = some (r.comment c) := by
  cases hs : c.source <;>
    simp [comment, StyleBlocks.Relocation.comment, hs, recordBefore, record_eq h, record?_eq h,
      placeRange_eq h, commentCorrections, StyleBlocks.Relocation.recordBefore]

mutual

/-- **Moving a node to the host does not fault.** -/
theorem node_eq (h : IsForward r) (n : Node) : node r n = some (r.node n) := by
  cases n with
  | rule head ns => simp [node, StyleBlocks.Relocation.node, ruleHead_eq h, nodes_eq h ns]
  | atRule head ns => simp [node, StyleBlocks.Relocation.node, atRuleHead_eq h, nodes_eq h ns]
  | atStatement head => simp [node, StyleBlocks.Relocation.node, atRuleHead_eq h]
  | declaration d => simp [node, StyleBlocks.Relocation.node, declaration_eq h]
  | comment c => simp [node, StyleBlocks.Relocation.node, comment_eq h]

/-- Nodes are moved without a fault. -/
theorem nodes_eq (h : IsForward r) (ns : List Node) : nodes r ns = some (r.nodes ns) := by
  cases ns with
  | nil => rfl
  | cons n ns => simp [nodes, StyleBlocks.Relocation.nodes, node_eq h n, nodes_eq h ns]

end

/-- **Moving a style sheet to the host does not fault.** -/
theorem root_eq (h : IsForward r) (s : Root) : root r s = some (r.root s) := by
  cases hs : s.source <;>
    simp [root, StyleBlocks.Relocation.root, hs, record?_eq h, nodes_eq h, placeRange_eq h]

end

/-! ### Relocations for templates -/

/-- Lines are counted from one. -/
theorem line_position_pos {m : LineMap} (h : IsAscending m) (o : Nat) : 1 ≤ (m.position o).line := by
  obtain ⟨ns, hns⟩ := List.head?_eq_some_iff.1 h.head
  simp [LineMap.position, hns]

/-- An offset behind another one does not lie on a line in front of it. -/
theorem line_position_le (m : LineMap) {o o' : Nat} (h : o ≤ o') :
    (m.position o).line ≤ (m.position o').line := by
  have hle : min o m.size ≤ min o' m.size := by omega
  simp only [LineMap.position]
  generalize min o m.size = a at hle ⊢
  generalize min o' m.size = b at hle ⊢
  induction m.starts with
  | nil => simp
  | cons n ns ih =>
      simp only [List.takeWhile_cons]
      split
      · next hn =>
          have hn' : n ≤ b := Nat.le_trans (by simpa using hn) hle
          simp [hn', ih]
      · simp

open Template

/-- A hole between two parts that are laid ends behind where it starts. -/
theorem line_le_of_mem_shiftsFrom {lines : LineMap} {front : Text} {qs : List Quasi} {gs : List Text}
    (h : Laid lines front qs gs) (i : Nat) (found : List Placeholder.Found) :
    ∀ s ∈ shiftsFrom i found qs, s.start.line ≤ s.stop.line := by
  fun_induction Laid lines front qs gs generalizing i with
  | case1 => simp [shiftsFrom]
  | case2 front q r qs g gs ih =>
      obtain ⟨hq, -, hrest⟩ := h
      have hline : q.stop.line ≤ r.start.line := by
        rw [hq.stop, hrest.head.start]
        exact line_position_le lines (by simp)
      rw [shiftsFrom]
      split
      · exact ih hrest (i + 1)
      · exact List.forall_mem_cons.2 ⟨hline, ih hrest (i + 1)⟩
  | case3 => exact h.elim

/-- **The relocation for a template whose parts are laid is forward.** -/
theorem isForward_of_laid {lines : LineMap} {front : Text} {t : Tagged} {gs : List Text}
    (hlines : IsAscending lines) (h : Laid lines front t.quasis gs) {normalized : Text}
    {config : BlockConfig} {r : StyleBlocks.Relocation}
    (hr : ofTemplate? t normalized config = some r) : IsForward r := by
  obtain ⟨first, hfirst, hstands⟩ := h.exists_head
  simp only [ofTemplate?, hfirst, Option.bind_eq_bind, Option.bind_some, Option.pure_def,
    Option.some.injEq] at hr
  subst hr
  refine ⟨isAscending_ofText normalized, ?_, line_le_of_mem_shiftsFrom h 0 _⟩
  rw [hstands.start]
  exact line_position_pos hlines _

end StyleBlocks.Checked
