import StyleBlocks.Sheet.Node

/-!
# Printing style sheets

A style sheet is printed as a list of **fragments**, each of which knows whose text it is and whether it
marks the start or the end of that owner. Every text is looked up in the **overrides** first, so that
a text can be printed in another form without another printer. Raws that a node lacks are printed with
default spacing.

A fragment without text is left out unless it marks a boundary.
-/

namespace StyleBlocks.Sheet

/-- The edges of a node. -/
inductive Boundary where
  /-- The start of a node. -/
  | start
  /-- The end of a node. -/
  | stop
deriving DecidableEq, Repr

/-- A **fragment** of printed text. -/
structure Fragment where
  /-- The text. -/
  text : Text
  /-- What the text belongs to, if it belongs to a style sheet. -/
  owner : Option Owner := none
  /-- The edge that the fragment marks, if it marks one. -/
  boundary : Option Boundary := none
deriving DecidableEq, Repr

/-- The text of fragments put together. -/
def Fragment.texts (fs : List Fragment) : Text :=
  fs.flatMap Fragment.text

/-- **Overrides**: what to print for a text, given its owner's kind and corrections, its key and
itself; `none` stands for the text itself. -/
abbrev Overrides :=
  Owner → Corrections → RawKey → Text → Option Text

namespace Overrides

/-- Every text is printed as it is. -/
def none : Overrides := fun _ _ _ _ => .none

/-- A correction that still holds is printed instead of the text. -/
def corrected : Overrides := fun _ cs key current => cs.get? key current

end Overrides

/-- The spacing for raws that a node lacks. -/
structure Spacing where
  /-- The indentation of one level. -/
  indent : Text := "    ".toList
  /-- What stands between a property and its value. -/
  colon : Text := ": ".toList
  /-- What stands in front of an opening brace. -/
  beforeOpen : Text := " ".toList
deriving DecidableEq, Repr

namespace Spacing

/-- A line break and the indentation of a depth. -/
def breakLine (s : Spacing) (depth : Nat) : Text :=
  '\n' :: (List.replicate depth s.indent).flatten

/-- What stands in front of a node; nothing in front of the first of a style sheet. -/
def before (s : Spacing) (depth : Nat) (first : Bool) : Text :=
  if first then [] else s.breakLine depth

/-- What stands in front of a closing brace; nothing in an empty block. -/
def close (s : Spacing) (depth : Nat) (nodes : List Node) : Text :=
  if nodes.isEmpty then [] else s.breakLine depth

end Spacing

/-- How style sheets are printed. -/
structure Printer where
  /-- What to print for each text. -/
  overrides : Overrides := .none
  /-- The spacing for raws that are missing. -/
  spacing : Spacing := {}

namespace Printer

/-- What is printed for a text, or for the raw that is missing. -/
def lookUp (p : Printer) (o : Owner) (cs : Corrections) (key : RawKey) (own : Option Text)
    (default : Text) : Text :=
  match own with
  | some t => (p.overrides o cs key t).getD t
  | none => default

/-- A fragment that marks no boundary, left out if it has no text. -/
def emit (o : Owner) (t : Text) : List Fragment :=
  if t.isEmpty then [] else [{ text := t, owner := some o }]

/-- A fragment that marks a boundary. -/
def mark (o : Owner) (b : Boundary) (t : Text) : Fragment :=
  { text := t, owner := some o, boundary := some b }

/-- The fragments of a declaration, what stands in front of it aside. -/
def declaration (p : Printer) (d : Declaration) : List Fragment :=
  let text := p.lookUp .declaration d.corrections
  mark .declaration .start (text .prop (some d.prop) []) ::
    (emit .declaration (text .between d.between p.spacing.colon) ++
      emit .declaration (text .value (some d.value) []) ++
      emit .declaration (text .after d.after []))

/-- The fragments of a comment, what stands in front of it aside. -/
def comment (p : Printer) (c : Comment) : List Fragment :=
  let text := p.lookUp .comment c.corrections .value (some c.text) []
  emit .comment
    (if c.inline then '/' :: '/' :: text else '/' :: '*' :: text ++ ['*', '/'])

/-- The fragments of an at-rule up to its parameters, what stands in front of it aside. -/
def atRuleHead (p : Printer) (h : AtRuleHead) : List Fragment :=
  let text := p.lookUp .atRule h.corrections
  let gap := if h.params.isEmpty then [] else [' ']
  mark .atRule .start ('@' :: h.name) ::
    (emit .atRule (text .afterName h.afterName gap) ++ emit .atRule (text .value (some h.params) []))

/-- The fragments of a block with a head: its opening brace, what is in it, and its closing brace. -/
def block (o : Owner) (between : Text) (body : List Fragment) (after : Text) : List Fragment :=
  emit o (between ++ ['{']) ++ body ++ emit o after ++ [mark o .stop ['}']]

mutual

/-- The fragments of a node at a depth; `first` tells if it is the first of the style sheet. -/
def node (p : Printer) (depth : Nat) (first : Bool) : Node → List Fragment
  | .rule h ns =>
    let text := p.lookUp .rule h.corrections
    let front := emit .rule (text .before h.before (p.spacing.before depth first)) ++
      [mark .rule .start (text .value (some h.selector) [])]
    if h.mixin then front ++ emit .rule (text .between h.between [])
    else front ++ block .rule (text .between h.between p.spacing.beforeOpen)
      (nodes p (depth + 1) false h.semicolon ns)
      (text .after h.after (p.spacing.close depth ns))
  | .atRule h ns =>
    let text := p.lookUp .atRule h.corrections
    emit .atRule (text .before h.before (p.spacing.before depth first)) ++ p.atRuleHead h ++
      block .atRule (text .between h.between p.spacing.beforeOpen)
        (nodes p (depth + 1) false h.semicolon ns)
        (text .after h.after (p.spacing.close depth ns))
  | .atStatement h =>
    let text := p.lookUp .atRule h.corrections
    emit .atRule (text .before h.before (p.spacing.before depth first)) ++ p.atRuleHead h ++
      emit .atRule (text .between h.between [])
  | .declaration d =>
    emit .declaration (p.lookUp .declaration d.corrections .before d.before
      (p.spacing.before depth first)) ++ p.declaration d
  | .comment c =>
    emit .comment (p.lookUp .comment c.corrections .before c.before
      (p.spacing.before depth first)) ++ p.comment c

/-- The fragments of a list of nodes at a depth, with semicolons between those that need them, and
after the last of them if `semicolon` holds. -/
def nodes (p : Printer) (depth : Nat) (first semicolon : Bool) : List Node → List Fragment
  | [] => []
  | n :: ns =>
    p.node depth first n ++
      (if n.needsSemicolon && (semicolon || !ns.isEmpty) then emit n.owner [';'] else []) ++
      p.nodes depth false semicolon ns

end

/-- The fragments of a style sheet. -/
def root (p : Printer) (r : Root) : List Fragment :=
  p.nodes 0 true r.semicolon r.nodes ++
    emit .root (p.lookUp .root r.corrections .after r.after [])

end Printer

/-- The text of a style sheet, printed as it is. -/
def Root.render (r : Root) : Text :=
  Fragment.texts (Printer.root {} r)

end StyleBlocks.Sheet
