import StyleBlocks.Document.Edit
import StyleBlocks.Document.Printing
import StyleBlocks.Proofs.Sheet.Slots

/-!
# Changing one text

Every fragment of a style sheet is made safe by itself, and what is printed between the fragments does
not depend on the texts of nodes: semicolons depend on the kinds of nodes, and default spacing on depth
and on whether a block is empty. So if one text of a node is changed, the fragment that it is printed in
stands between the same two texts as before.

A text **frames** another one if it is that one between two texts that do not depend on it. Frames go
through everything that printing puts together: the fragments of a node, siblings, the nodes around
them, and the blocks of a document.

## Main results

* `Sheet.Node.frames_setText`: a node frames the fragment of each of its slots.
* `Sheet.Node.frames_setTextAt`: siblings frame the fragment of a slot at any path.
* `Document.render_setText`: changing one text of a document changes what is printed in its place, and
  nothing else.
-/

namespace StyleBlocks

open Sheet

/-! ### Frames -/

/-- A text `g` **frames** `f`: whatever they depend on, `g` is `f` between the same two texts. -/
def Text.Frames (f g : Text → Text) : Prop :=
  ∃ front back, ∀ t, g t = front ++ f t ++ back

namespace Text.Frames

variable {f g : Text → Text}

/-- A text frames itself. -/
theorem refl (f : Text → Text) : Frames f f :=
  ⟨[], [], fun t => by rw [List.nil_append, List.append_nil]⟩

/-- A text in front of both leaves one framed by the other. -/
theorem append_left (h : Frames f g) (s : Text) : Frames f fun t => s ++ g t := by
  obtain ⟨front, back, h⟩ := h
  exact ⟨s ++ front, back, fun t => by simp [h]⟩

/-- A text behind both leaves one framed by the other. -/
theorem append_right (h : Frames f g) (s : Text) : Frames f fun t => g t ++ s := by
  obtain ⟨front, back, h⟩ := h
  exact ⟨front, back ++ s, fun t => by simp [h]⟩

/-- Being framed is a matter of the texts alone. -/
theorem congr {g' : Text → Text} (hg : ∀ t, g' t = g t) (h : Frames f g) : Frames f g' :=
  funext hg ▸ h

end Text.Frames

/-! ### Fragments in a template -/

namespace Sheet

variable {es : List Text}

/-- The text of fragments that are made safe for a template with the given holes. -/
def Fragment.safeTexts (es : List Text) (fs : List Fragment) : Text :=
  Fragment.texts (fs.map (Fragment.hostSafe es))

/-- A text with the given owner, made safe for a template with the given holes. -/
def Owner.safeText (es : List Text) (o : Owner) (t : Text) : Text :=
  (Fragment.hostSafe es { text := t, owner := some o }).text

/-- Fragments are made safe one by one. -/
@[simp] theorem Fragment.safeTexts_append (fs gs : List Fragment) :
    safeTexts es (fs ++ gs) = safeTexts es fs ++ safeTexts es gs := by
  simp [safeTexts, texts]

/-- Nothing is put into a fragment without text. -/
theorem Owner.safeText_nil (o : Owner) : o.safeText es [] = [] := by
  have hfragment : Placeholder.readFragment? [] = none := by decide
  cases o <;> simp [safeText, Fragment.hostSafe, hfragment, hostText, Placeholder.resolve,
    Placeholder.pieces]

/-- What is emitted is the text that its owner makes safe. -/
@[simp] theorem Printer.safeTexts_emit (o : Owner) (t : Text) :
    Fragment.safeTexts es (emit o t) = o.safeText es t := by
  cases t with
  | nil => exact (Owner.safeText_nil o).symm
  | cons c t => simp [emit, Fragment.safeTexts, Fragment.texts, Owner.safeText]

/-- Making a fragment safe does not depend on the edge that it marks. -/
@[simp] theorem Printer.safeTexts_mark (o : Owner) (b : Boundary) (t : Text) (fs : List Fragment) :
    Fragment.safeTexts es (mark o b t :: fs) = o.safeText es t ++ Fragment.safeTexts es fs := by
  have hmark : (Fragment.hostSafe es (mark o b t)).text = o.safeText es t := by
    cases o with
    | comment =>
        simp only [mark, Fragment.hostSafe, Owner.safeText]
        split <;> rfl
    | _ => rfl
  rw [← hmark]
  rfl

@[simp] theorem Fragment.safeTexts_nil : Fragment.safeTexts es [] = [] := rfl

/-- The fragment of a slot is made safe like any text of its owner. -/
theorem Slot.text_hostSafe (s : Slot) (t : Text) :
    ((s.fragment t).hostSafe es).text =
      s.owner.safeText es (s.front ++ s.corrections.shown s.key t ++ s.back) := rfl

/-! ### Nodes -/

namespace Node

variable {key : RawKey} {s : Slot} {n m : Node} {depth : Nat} {first semicolon : Bool}

/-- How the texts of a document are printed. -/
def printer : Printer :=
  { overrides := .corrected }

/-- A text that is there is shown with its correction. -/
theorem lookUp_some (o : Owner) (cs : Corrections) (key : RawKey) (t default : Text) :
    printer.lookUp o cs key (some t) default = cs.shown key t := rfl

/-- A block is printed as its parts. -/
@[simp] theorem safeTexts_block (o : Owner) (between : Text) (body : List Fragment) (after : Text) :
    Fragment.safeTexts es (Printer.block o between body after) =
      o.safeText es (between ++ ['{']) ++ Fragment.safeTexts es body ++ o.safeText es after ++
        o.safeText es ['}'] := by
  simp [Printer.block]

/-- What a rule with a block is printed as. -/
theorem safeTexts_rule {h : RuleHead} {ns : List Node} (hm : h.mixin = false) :
    Fragment.safeTexts es (printer.node depth first (rule h ns)) =
      Owner.rule.safeText es (printer.lookUp .rule h.corrections .before h.before
        (printer.spacing.before depth first)) ++
      Owner.rule.safeText es (h.corrections.shown .value h.selector) ++
      Owner.rule.safeText es (printer.lookUp .rule h.corrections .between h.between
        printer.spacing.beforeOpen ++ ['{']) ++
      Fragment.safeTexts es (printer.nodes (depth + 1) false h.semicolon ns) ++
      Owner.rule.safeText es (printer.lookUp .rule h.corrections .after h.after
        (printer.spacing.close depth ns)) ++
      Owner.rule.safeText es ['}'] := by
  simp [Printer.node, hm, lookUp_some]

/-- What a mixin is printed as. -/
theorem safeTexts_mixin {h : RuleHead} {ns : List Node} (hm : h.mixin = true) :
    Fragment.safeTexts es (printer.node depth first (rule h ns)) =
      Owner.rule.safeText es (printer.lookUp .rule h.corrections .before h.before
        (printer.spacing.before depth first)) ++
      Owner.rule.safeText es (h.corrections.shown .value h.selector) ++
      Owner.rule.safeText es (printer.lookUp .rule h.corrections .between h.between []) := by
  simp [Printer.node, hm, lookUp_some]

/-- What stands in front of the parameters of an at-rule by default. -/
def paramsGap (params : Text) : Text :=
  if params.isEmpty then [] else [' ']

/-- What an at-rule is printed as up to its parameters. -/
def atRuleText (es : List Text) (depth : Nat) (first : Bool) (h : AtRuleHead) : Text :=
  Owner.atRule.safeText es (printer.lookUp .atRule h.corrections .before h.before
    (printer.spacing.before depth first)) ++
  Owner.atRule.safeText es ('@' :: h.name) ++
  Owner.atRule.safeText es (printer.lookUp .atRule h.corrections .afterName h.afterName
    (paramsGap h.params)) ++
  Owner.atRule.safeText es (h.corrections.shown .value h.params)

/-- What stands behind the parameters does not matter for what is printed in front. -/
theorem atRuleText_between (h : AtRuleHead) (t : Option Text) :
    atRuleText es depth first { h with between := t } = atRuleText es depth first h := rfl

/-- What stands at the end does not matter for what is printed in front. -/
theorem atRuleText_after (h : AtRuleHead) (t : Option Text) :
    atRuleText es depth first { h with after := t } = atRuleText es depth first h := rfl

/-- What an at-rule with a block is printed as. -/
theorem safeTexts_atRule {h : AtRuleHead} {ns : List Node} :
    Fragment.safeTexts es (printer.node depth first (atRule h ns)) =
      atRuleText es depth first h ++
      Owner.atRule.safeText es (printer.lookUp .atRule h.corrections .between h.between
        printer.spacing.beforeOpen ++ ['{']) ++
      Fragment.safeTexts es (printer.nodes (depth + 1) false h.semicolon ns) ++
      Owner.atRule.safeText es (printer.lookUp .atRule h.corrections .after h.after
        (printer.spacing.close depth ns)) ++
      Owner.atRule.safeText es ['}'] := by
  simp [Printer.node, Printer.atRuleHead, atRuleText, paramsGap, lookUp_some]

/-- What an at-rule without a block is printed as. -/
theorem safeTexts_atStatement {h : AtRuleHead} :
    Fragment.safeTexts es (printer.node depth first (atStatement h)) =
      atRuleText es depth first h ++
      Owner.atRule.safeText es (printer.lookUp .atRule h.corrections .between h.between []) := by
  simp [Printer.node, Printer.atRuleHead, atRuleText, paramsGap, lookUp_some]

/-- What a declaration is printed as. -/
theorem safeTexts_declaration {d : Declaration} :
    Fragment.safeTexts es (printer.node depth first (declaration d)) =
      Owner.declaration.safeText es (printer.lookUp .declaration d.corrections .before d.before
        (printer.spacing.before depth first)) ++
      Owner.declaration.safeText es (d.corrections.shown .prop d.prop) ++
      Owner.declaration.safeText es (printer.lookUp .declaration d.corrections .between d.between
        printer.spacing.colon) ++
      Owner.declaration.safeText es (d.corrections.shown .value d.value) ++
      Owner.declaration.safeText es (printer.lookUp .declaration d.corrections .after d.after []) := by
  simp [Printer.node, Printer.declaration, lookUp_some]

/-- What a comment is printed as. -/
theorem safeTexts_comment {c : Comment} :
    Fragment.safeTexts es (printer.node depth first (comment c)) =
      Owner.comment.safeText es (printer.lookUp .comment c.corrections .before c.before
        (printer.spacing.before depth first)) ++
      Owner.comment.safeText es (if c.inline then ['/', '/'] ++ c.corrections.shown .value c.text
        else ['/', '*'] ++ c.corrections.shown .value c.text ++ ['*', '/']) := by
  simp [Printer.node, Printer.comment, lookUp_some]

/-- The head of an at-rule frames the texts in it. -/
theorem frames_atRuleHead {h : AtRuleHead} (hkey : key = .before ∨ key = .afterName ∨
      key = .value ∧ h.afterName.isSome) :
    Text.Frames (fun t => Owner.atRule.safeText es (h.corrections.shown key t))
      fun t => atRuleText es depth first (setText.atRuleHead key t h) := by
  rcases hkey with rfl | rfl | ⟨rfl, hname⟩
  · simp only [atRuleText, setText.atRuleHead, lookUp_some]
    iterate 3 refine Text.Frames.append_right ?_ _
    exact Text.Frames.refl _
  · simp only [atRuleText, setText.atRuleHead, lookUp_some]
    exact ((Text.Frames.refl _).append_left _).append_right _
  · obtain ⟨u, hu⟩ := Option.isSome_iff_exists.1 hname
    simp only [atRuleText, setText.atRuleHead, hu, lookUp_some]
    exact (Text.Frames.refl _).append_left _

/-- A rule with a block frames the fragments of its slots. -/
theorem frames_setText_rule {h : RuleHead} {ns : List Node} (hm : h.mixin = false)
    (hs : (rule h ns).slot? key = some s) :
    Text.Frames (fun t => ((s.fragment t).hostSafe es).text)
      fun t => Fragment.safeTexts es (printer.node depth first ((rule h ns).setText key t)) := by
  cases key <;> simp only [slot?, hm, Option.map_eq_some_iff, reduceCtorEq, Option.some.injEq,
    Bool.false_eq_true, if_false] at hs
  case before =>
      obtain ⟨t, -, rfl⟩ := hs
      refine Text.Frames.congr (fun t => safeTexts_rule hm) ?_
      simp only [Slot.text_hostSafe, List.nil_append, List.append_nil, lookUp_some]
      iterate 5 refine Text.Frames.append_right ?_ _
      exact Text.Frames.refl _
  case value =>
      subst hs
      refine Text.Frames.congr (fun t => safeTexts_rule hm) ?_
      simp only [Slot.text_hostSafe, List.nil_append, List.append_nil]
      iterate 4 refine Text.Frames.append_right ?_ _
      exact (Text.Frames.refl _).append_left _
  case between =>
      obtain ⟨t, -, rfl⟩ := hs
      refine Text.Frames.congr (fun t => safeTexts_rule hm) ?_
      simp only [Slot.text_hostSafe, List.nil_append, lookUp_some]
      iterate 3 refine Text.Frames.append_right ?_ _
      exact (Text.Frames.refl _).append_left _
  case after =>
      obtain ⟨t, -, rfl⟩ := hs
      refine Text.Frames.congr (fun t => safeTexts_rule hm) ?_
      simp only [Slot.text_hostSafe, List.nil_append, List.append_nil, lookUp_some]
      exact ((Text.Frames.refl _).append_left _).append_right _

/-- A mixin frames the fragments of its slots. -/
theorem frames_setText_mixin {h : RuleHead} {ns : List Node} (hm : h.mixin = true)
    (hs : (rule h ns).slot? key = some s) :
    Text.Frames (fun t => ((s.fragment t).hostSafe es).text)
      fun t => Fragment.safeTexts es (printer.node depth first ((rule h ns).setText key t)) := by
  cases key <;> simp only [slot?, hm, Option.map_eq_some_iff, reduceCtorEq, Option.some.injEq,
    if_true] at hs
  case before =>
      obtain ⟨t, -, rfl⟩ := hs
      refine Text.Frames.congr (fun t => safeTexts_mixin hm) ?_
      simp only [Slot.text_hostSafe, List.nil_append, List.append_nil, lookUp_some]
      exact ((Text.Frames.refl _).append_right _).append_right _
  case value =>
      subst hs
      refine Text.Frames.congr (fun t => safeTexts_mixin hm) ?_
      simp only [Slot.text_hostSafe, List.nil_append, List.append_nil]
      exact ((Text.Frames.refl _).append_left _).append_right _
  case between =>
      obtain ⟨t, -, rfl⟩ := hs
      refine Text.Frames.congr (fun t => safeTexts_mixin hm) ?_
      simp only [Slot.text_hostSafe, List.nil_append, List.append_nil, lookUp_some]
      exact (Text.Frames.refl _).append_left _

/-- An at-rule with a block frames the fragments of its slots. -/
theorem frames_setText_atRule {h : AtRuleHead} {ns : List Node}
    (hs : (atRule h ns).slot? key = some s) :
    Text.Frames (fun t => ((s.fragment t).hostSafe es).text)
      fun t => Fragment.safeTexts es (printer.node depth first ((atRule h ns).setText key t)) := by
  refine Text.Frames.congr (fun t => safeTexts_atRule) ?_
  cases key <;> simp only [slot?, Option.map_eq_some_iff, reduceCtorEq] at hs
  case before =>
      obtain ⟨t, -, rfl⟩ := hs
      simp only [Slot.text_hostSafe, List.nil_append, List.append_nil, setText.atRuleHead]
      iterate 4 refine Text.Frames.append_right ?_ _
      exact frames_atRuleHead (Or.inl rfl)
  case afterName =>
      obtain ⟨t, -, rfl⟩ := hs
      simp only [Slot.text_hostSafe, List.nil_append, List.append_nil, setText.atRuleHead]
      iterate 4 refine Text.Frames.append_right ?_ _
      exact frames_atRuleHead (Or.inr (Or.inl rfl))
  case value =>
      obtain ⟨t, ht, rfl⟩ := hs
      simp only [Slot.text_hostSafe, List.nil_append, List.append_nil, setText.atRuleHead]
      iterate 4 refine Text.Frames.append_right ?_ _
      exact frames_atRuleHead (Or.inr (Or.inr ⟨rfl, by simp [ht]⟩))
  case between =>
      obtain ⟨t, -, rfl⟩ := hs
      simp only [Slot.text_hostSafe, List.nil_append, setText.atRuleHead, lookUp_some,
        atRuleText_between]
      iterate 3 refine Text.Frames.append_right ?_ _
      exact (Text.Frames.refl _).append_left _
  case after =>
      obtain ⟨t, -, rfl⟩ := hs
      simp only [Slot.text_hostSafe, List.nil_append, List.append_nil, setText.atRuleHead,
        lookUp_some, atRuleText_after]
      exact ((Text.Frames.refl _).append_left _).append_right _

/-- An at-rule without a block frames the fragments of its slots. -/
theorem frames_setText_atStatement {h : AtRuleHead} (hs : (atStatement h).slot? key = some s) :
    Text.Frames (fun t => ((s.fragment t).hostSafe es).text)
      fun t => Fragment.safeTexts es (printer.node depth first ((atStatement h).setText key t)) := by
  refine Text.Frames.congr (fun t => safeTexts_atStatement) ?_
  cases key <;> simp only [slot?, Option.map_eq_some_iff, reduceCtorEq] at hs
  case before =>
      obtain ⟨t, -, rfl⟩ := hs
      simp only [Slot.text_hostSafe, List.nil_append, List.append_nil, setText.atRuleHead]
      exact (frames_atRuleHead (Or.inl rfl)).append_right _
  case afterName =>
      obtain ⟨t, -, rfl⟩ := hs
      simp only [Slot.text_hostSafe, List.nil_append, List.append_nil, setText.atRuleHead]
      exact (frames_atRuleHead (Or.inr (Or.inl rfl))).append_right _
  case value =>
      obtain ⟨t, ht, rfl⟩ := hs
      simp only [Slot.text_hostSafe, List.nil_append, List.append_nil, setText.atRuleHead]
      exact (frames_atRuleHead (Or.inr (Or.inr ⟨rfl, by simp [ht]⟩))).append_right _
  case between =>
      obtain ⟨t, -, rfl⟩ := hs
      simp only [Slot.text_hostSafe, List.nil_append, List.append_nil, setText.atRuleHead,
        lookUp_some, atRuleText_between]
      exact (Text.Frames.refl _).append_left _

/-- A declaration frames the fragments of its slots. -/
theorem frames_setText_declaration {d : Declaration} (hs : (declaration d).slot? key = some s) :
    Text.Frames (fun t => ((s.fragment t).hostSafe es).text)
      fun t => Fragment.safeTexts es (printer.node depth first ((declaration d).setText key t)) := by
  cases key <;> simp only [slot?, Option.map_eq_some_iff, reduceCtorEq, Option.some.injEq] at hs
  case before =>
      obtain ⟨t, -, rfl⟩ := hs
      refine Text.Frames.congr (fun t => safeTexts_declaration) ?_
      simp only [Slot.text_hostSafe, List.nil_append, List.append_nil, lookUp_some]
      iterate 4 refine Text.Frames.append_right ?_ _
      exact Text.Frames.refl _
  case prop =>
      subst hs
      refine Text.Frames.congr (fun t => safeTexts_declaration) ?_
      simp only [Slot.text_hostSafe, List.nil_append, List.append_nil]
      iterate 3 refine Text.Frames.append_right ?_ _
      exact (Text.Frames.refl _).append_left _
  case between =>
      obtain ⟨t, -, rfl⟩ := hs
      refine Text.Frames.congr (fun t => safeTexts_declaration) ?_
      simp only [Slot.text_hostSafe, List.nil_append, List.append_nil, lookUp_some]
      iterate 2 refine Text.Frames.append_right ?_ _
      exact (Text.Frames.refl _).append_left _
  case value =>
      subst hs
      refine Text.Frames.congr (fun t => safeTexts_declaration) ?_
      simp only [Slot.text_hostSafe, List.nil_append, List.append_nil]
      exact ((Text.Frames.refl _).append_left _).append_right _
  case after =>
      obtain ⟨t, -, rfl⟩ := hs
      refine Text.Frames.congr (fun t => safeTexts_declaration) ?_
      simp only [Slot.text_hostSafe, List.nil_append, List.append_nil, lookUp_some]
      exact (Text.Frames.refl _).append_left _

/-- A comment frames the fragments of its slots. -/
theorem frames_setText_comment {c : Comment} (hs : (comment c).slot? key = some s) :
    Text.Frames (fun t => ((s.fragment t).hostSafe es).text)
      fun t => Fragment.safeTexts es (printer.node depth first ((comment c).setText key t)) := by
  cases key <;> simp only [slot?, Option.map_eq_some_iff, reduceCtorEq] at hs
  case before =>
      obtain ⟨t, -, rfl⟩ := hs
      refine Text.Frames.congr (fun t => safeTexts_comment) ?_
      simp only [Slot.text_hostSafe, List.nil_append, List.append_nil, lookUp_some]
      exact (Text.Frames.refl _).append_right _
  case value =>
      refine Text.Frames.congr (fun t => safeTexts_comment) ?_
      by_cases hinline : c.inline = true
      · rw [if_pos hinline, Option.some.injEq] at hs
        subst hs
        simp only [Slot.text_hostSafe, List.append_nil, hinline, if_true]
        exact (Text.Frames.refl _).append_left _
      · rw [if_neg hinline, Option.some.injEq] at hs
        subst hs
        simp only [Slot.text_hostSafe, hinline]
        exact (Text.Frames.refl _).append_left _

/-- **A node frames the fragment of each of its slots.** -/
theorem frames_setText (hs : n.slot? key = some s) (depth : Nat) (first : Bool) :
    Text.Frames (fun t => ((s.fragment t).hostSafe es).text)
      fun t => Fragment.safeTexts es (printer.node depth first (n.setText key t)) := by
  cases n with
  | rule h ns =>
      cases hm : h.mixin with
      | false => exact frames_setText_rule hm hs
      | true => exact frames_setText_mixin hm hs
  | atRule h ns => exact frames_setText_atRule hs
  | atStatement h => exact frames_setText_atStatement hs
  | declaration d => exact frames_setText_declaration hs
  | comment c => exact frames_setText_comment hs

/-! ### Siblings -/

variable {f : Text → Text} {ns : List Node} {path : Path} {i : Nat}

/-- What siblings are printed as: the first, its semicolon, and the others. -/
theorem safeTexts_cons (depth : Nat) (first semicolon : Bool) (n : Node) (ns : List Node) :
    Fragment.safeTexts es (printer.nodes depth first semicolon (n :: ns)) =
      Fragment.safeTexts es (printer.node depth first n) ++
      Fragment.safeTexts es (if n.needsSemicolon && (semicolon || !ns.isEmpty) then
        Printer.emit n.owner [';'] else []) ++
      Fragment.safeTexts es (printer.nodes depth false semicolon ns) := by
  simp [Printer.nodes]

/-- A change to one node leaves as many nodes as there were. -/
theorem isEmpty_modify (ns : List Node) (i : Nat) (g : Node → Node) :
    (ns.modify i g).isEmpty = ns.isEmpty := by
  cases ns <;> cases i <;> rfl

/-- A text that is set leaves as many nodes as there were. -/
theorem isEmpty_setTextAt (t : Text) : (setTextAt key t path ns).isEmpty = ns.isEmpty := by
  match path with
  | [] => rfl
  | [i] => exact isEmpty_modify ns i _
  | i :: j :: p => exact isEmpty_modify ns i _

/-- Siblings frame what one of them frames, if this keeps its kind. -/
theorem frames_modify {g : Text → Node → Node} (hm : ns[i]? = some m)
    (howner : ∀ t, (g t m).owner = m.owner)
    (hsemicolon : ∀ t, (g t m).needsSemicolon = m.needsSemicolon)
    (hf : ∀ depth first,
      Text.Frames f fun t => Fragment.safeTexts es (printer.node depth first (g t m)))
    (depth : Nat) (first semicolon : Bool) :
    Text.Frames f fun t =>
      Fragment.safeTexts es (printer.nodes depth first semicolon (ns.modify i (g t))) := by
  induction ns generalizing i first with
  | nil => contradiction
  | cons n ns ih =>
      cases i with
      | zero =>
          obtain rfl : n = m := Option.some.inj hm
          simp only [List.modify_zero_cons, safeTexts_cons, howner, hsemicolon]
          exact ((hf depth first).append_right _).append_right _
      | succ i =>
          simp only [List.modify_succ_cons, safeTexts_cons, isEmpty_modify]
          exact (ih hm false).append_left _

/-- A node frames what its block frames, if this does not become empty. -/
theorem frames_withChildren {ms : List Node} {g : Text → List Node}
    (hms : m.printedBlock? = some ms) (hempty : ∀ t, (g t).isEmpty = ms.isEmpty)
    (hf : ∀ depth first semicolon,
      Text.Frames f fun t => Fragment.safeTexts es (printer.nodes depth first semicolon (g t)))
    (depth : Nat) (first : Bool) :
    Text.Frames f fun t => Fragment.safeTexts es (printer.node depth first (m.withChildren (g t))) := by
  cases m with
  | rule h ns =>
      have hmixin : h.mixin = false := by
        by_contra hmixin
        simp [printedBlock?, hmixin] at hms
      refine Text.Frames.congr (fun t => safeTexts_rule hmixin) ?_
      simp only [Spacing.close, hempty]
      iterate 2 refine Text.Frames.append_right ?_ _
      exact (hf _ _ _).append_left _
  | atRule h ns =>
      refine Text.Frames.congr (fun t => safeTexts_atRule) ?_
      simp only [Spacing.close, hempty]
      iterate 2 refine Text.Frames.append_right ?_ _
      exact (hf _ _ _).append_left _
  | _ => contradiction

/-- Other nodes in the block leave the owner as it is. -/
@[simp] theorem owner_withChildren (ms : List Node) : (m.withChildren ms).owner = m.owner := by
  cases m <;> rfl

/-- Other nodes in the block leave it as it is if a semicolon is needed. -/
@[simp] theorem needsSemicolon_withChildren (ms : List Node) :
    (m.withChildren ms).needsSemicolon = m.needsSemicolon := by
  cases m <;> rfl

/-- **Siblings frame the fragment of a slot** at any path. -/
theorem frames_setTextAt (hn : reached? ns path = some n) (hs : n.slot? key = some s)
    (depth : Nat) (first semicolon : Bool) :
    Text.Frames (fun t => ((s.fragment t).hostSafe es).text) fun t =>
      Fragment.safeTexts es (printer.nodes depth first semicolon (setTextAt key t path ns)) := by
  induction path generalizing ns depth first semicolon with
  | nil => contradiction
  | cons i path ih =>
      cases path with
      | nil =>
          exact frames_modify hn (fun _ => owner_setText) (fun _ => needsSemicolon_setText)
            (frames_setText hs) depth first semicolon
      | cons j path =>
          obtain ⟨m, ms, hm, hms, hn⟩ := exists_of_reached? hn
          obtain ⟨-, rfl, -, -⟩ := of_printedBlock? hms
          exact frames_modify (g := fun t n => n.withChildren (setTextAt key t (j :: path) n.children))
            hm (fun _ => owner_withChildren _)
            (fun _ => needsSemicolon_withChildren _)
            (frames_withChildren hms (fun t => isEmpty_setTextAt t) (ih hn)) depth first semicolon

end Node

/-- **A style sheet frames the fragment of a slot** at any path. -/
theorem Root.frames_setText {r : Root} {key : RawKey} {path : Path} {s : Slot}
    (hs : r.slot? key path = some s) :
    Text.Frames (fun t => ((s.fragment t).hostSafe es).text) fun t =>
      Fragment.safeTexts es (Node.printer.root (r.setText key t path)) := by
  simp only [Printer.root, Fragment.safeTexts_append, Printer.safeTexts_emit]
  cases path with
  | nil =>
      cases key <;> simp only [slot?, reduceCtorEq, Option.map_eq_some_iff] at hs
      obtain ⟨t, -, rfl⟩ := hs
      simp only [Slot.text_hostSafe, List.nil_append, List.append_nil, setText, Node.lookUp_some]
      exact (Text.Frames.refl _).append_left _
  | cons i p =>
      obtain ⟨n, hn, hs⟩ := exists_of_slot? hs
      simp only [setText]
      exact (Node.frames_setTextAt hn hs _ _ _).append_right _

end Sheet

/-! ### Documents -/

/-- The edit that replaces the text with a name of the node at a path in a block. The empty path names
the style sheet of the block. -/
def Edit.ofText (i : Nat) (path : Path) (o : Owner) (key : RawKey) (t : Text) : Edit :=
  match path with
  | [] => .changeBlock i (.after (some t))
  | j :: p => .change i (j :: p) (.ofText o key t)

namespace Document

variable {d : Document} {b : StyleBlock} {i : Nat} {path : Path} {key : RawKey} {s : Slot}
  {t u : Text}

/-- Replaces the text with a name of the node at a path in a block. -/
def setText (i : Nat) (path : Path) (key : RawKey) (t : Text) (d : Document) : Document :=
  { d with blocks := d.blocks.modify i fun b => { b with root := b.root.setText key t path } }

/-- Blocks frame what the style sheet of one of them frames, if only that changes. -/
theorem frames_blockFragments {f : Text → Text} {g : Text → StyleBlock → StyleBlock}
    {bs : List StyleBlock} (hb : bs[i]? = some b) (hleading : ∀ t, (g t b).leading = b.leading)
    (htrailing : ∀ t, (g t b).trailing = b.trailing)
    (hf : Text.Frames f fun t => Fragment.texts (g t b).rootFragments) :
    Text.Frames f fun t => Fragment.texts (blockFragments (bs.modify i (g t))) := by
  have hcons : ∀ c cs, Fragment.texts (blockFragments (c :: cs)) =
      c.leading ++ Fragment.texts c.rootFragments ++ Fragment.texts
        (if cs.isEmpty then (c.trailing.map (hostFragment .stop)).toList else []) ++
        Fragment.texts (blockFragments cs) := by
    intro c cs
    simp [blockFragments, Fragment.texts, hostFragment]
  induction bs generalizing i with
  | nil => contradiction
  | cons c cs ih =>
      cases i with
      | zero =>
          obtain rfl : c = b := Option.some.inj hb
          simp only [List.modify_zero_cons, hcons, hleading, htrailing]
          iterate 2 refine Text.Frames.append_right ?_ _
          exact hf.append_left _
      | succ i =>
          have hempty : ∀ t, (cs.modify i (g t)).isEmpty = cs.isEmpty := fun t => by
            cases cs <;> cases i <;> rfl
          simp only [List.modify_succ_cons, hcons, hempty]
          exact (ih hb).append_left _

/-- A block that is changed where it is. -/
theorem modifyBlock?_eq {f : StyleBlock → Option StyleBlock} {g : StyleBlock → StyleBlock}
    (hb : d.blocks[i]? = some b) (hf : f b = some (g b)) :
    d.modifyBlock? i f = some { d with blocks := d.blocks.modify i g } := by
  simp [modifyBlock?, hb, hf, List.modify_eq_set_getElem?]

/-- A text that has a slot can be changed. -/
theorem edit?_ofText (hb : d.blocks[i]? = some b) (hs : b.root.slot? key path = some s) (t : Text) :
    d.edit? (.ofText i path s.owner key t) = some (d.setText i path key t) := by
  cases path with
  | nil =>
      refine modifyBlock?_eq hb ?_
      rfl
  | cons j p =>
      obtain ⟨n, hn, hs⟩ := Root.exists_of_slot? hs
      refine modifyBlock?_eq hb ?_
      simp [Node.owner_of_slot? hs, Node.modify?_setTextAt t hn hs, Root.setText]

/-- Of two changes of one text the later one counts. -/
theorem setText_setText :
    (d.setText i path key t).setText i path key u = d.setText i path key u := by
  simp only [setText, List.modify_modify_eq]
  refine congrArg (fun bs => (⟨d.source, bs, d.skipped⟩ : Document))
    (congrArg (List.modify d.blocks i) (funext fun b => ?_))
  simp [Root.setText_setText]

/-- The block of a text that is changed. -/
theorem getElem?_setText (hb : d.blocks[i]? = some b) (t : Text) :
    (d.setText i path key t).blocks[i]? = some { b with root := b.root.setText key t path } := by
  rw [setText, List.getElem?_modify_eq, hb]
  rfl

/-- Changing a text to itself changes nothing. -/
theorem setText_self (hb : d.blocks[i]? = some b) (hs : b.root.slot? key path = some s) :
    d.setText i path key s.text = d := by
  rw [setText, modify_eq_self hb (by rw [Root.setText_self hs])]

/-- **A document frames the fragment of a slot** at any path in any of its blocks. -/
theorem frames_setText (hb : d.blocks[i]? = some b) (hs : b.root.slot? key path = some s) :
    Text.Frames (fun t => ((s.fragment t).hostSafe b.expressions).text)
      fun t => (d.setText i path key t).render := by
  have hne : ∀ t, (d.setText i path key t).blocks.isEmpty = false := fun t => by
    rw [List.isEmpty_eq_false_iff]
    exact List.ne_nil_of_mem (List.mem_of_getElem? (getElem?_setText hb t))
  simp only [render, fragments, hne, Bool.false_eq_true, if_false]
  exact frames_blockFragments (g := fun t b => { b with root := b.root.setText key t path }) hb
    (fun _ => rfl) (fun _ => rfl) (Root.frames_setText hs)

/-- **Changing one text changes only what is printed in its place.** In any document, however it was
edited before, a printed text of a node that the printer reaches can be set to any text. What is printed
then stands between the same two texts: it is the fragment of the text, made safe for the template, in
which the correction is shown if it was made for that text, and the text itself if not. Setting the text
back restores the document. -/
theorem render_changedText (hb : d.blocks[i]? = some b) (hs : b.root.slot? key path = some s) :
    ∃ (front back : Text) (changed : Text → Document), changed s.text = d ∧
      (∀ t, ∃ c, (changed t).blocks[i]? = some c ∧
        c.root.slot? key path = some { s with text := t }) ∧
      (∀ t u, (changed t).edit? (.ofText i path s.owner key u) = some (changed u)) ∧
      (∀ t, (changed t).render =
        front ++ ((s.fragment t).hostSafe b.expressions).text ++ back) ∧
      ∀ t, (∀ c, s.corrections.find? s.key = some c → c.original ≠ t) →
        (s.fragment t).text = s.front ++ t ++ s.back := by
  obtain ⟨front, back, hrender⟩ := frames_setText hb hs
  refine ⟨front, back, fun t => d.setText i path key t, setText_self hb hs, fun t => ?_, fun t u => ?_,
    hrender, fun t hstale => ?_⟩
  · exact ⟨_, getElem?_setText hb t, Root.slot?_setText t hs⟩
  · have h := edit?_ofText (getElem?_setText hb t) (Root.slot?_setText t hs) u
    rwa [setText_setText] at h
  · rw [Slot.fragment, Corrections.shown_of_stale hstale]

/-- A value with a correction, which is printed for the value that it was made for and for no other
one. -/
theorem render_changedText_stale :
    let value : Declaration :=
      { prop := "b".toList, value := "c".toList, between := some ":".toList
        corrections := (∅ : Corrections).insert .value ⟨"c".toList, "\n  c".toList⟩ }
    let b : StyleBlock :=
      { root := { nodes := [.rule { selector := "a".toList } [.declaration value]] }
        config := some { expressions := ["$\x7bx\x7d".toList] }
        leading := "css\x60".toList, trailing := some "\x60".toList }
    let d : Document := { blocks := [b] }
    let s : Slot :=
      { owner := .declaration, corrections := value.corrections, key := .value, front := [], back := []
        text := "c".toList }
    d.blocks[0]? = some b ∧ b.root.slot? .value [0, 0] = some s ∧
      ∃ (front back : Text) (d' : Document),
        d.edit? (.change 0 [0, 0] (.value "/*STYLE_EXPR:0*/".toList)) = some d' ∧
        d'.edit? (.change 0 [0, 0] (.value "c".toList)) = some d ∧
        d.render = front ++ "\n  c".toList ++ back ∧
        d'.render = front ++ "$\x7bx\x7d".toList ++ back := by
  intro value b d s
  have hb : d.blocks[0]? = some b := rfl
  have hs : b.root.slot? .value [0, 0] = some s := rfl
  obtain ⟨front, back, changed, hself, -, hedit, hrender, -⟩ := render_changedText hb hs
  refine ⟨hb, hs, front, back, changed "/*STYLE_EXPR:0*/".toList, ?_, ?_, ?_, ?_⟩
  · have h := hedit "c".toList "/*STYLE_EXPR:0*/".toList
    rwa [show changed "c".toList = d from hself] at h
  · have h := hedit "/*STYLE_EXPR:0*/".toList "c".toList
    rwa [show changed "c".toList = d from hself] at h
  · rw [← show changed "c".toList = d from hself, hrender]
    have h : ((s.fragment "c".toList).hostSafe b.expressions).text = "\n  c".toList := by
      decide +kernel
    rw [h]
  · rw [hrender]
    have h : ((s.fragment "/*STYLE_EXPR:0*/".toList).hostSafe b.expressions).text =
        "$\x7bx\x7d".toList := by
      decide +kernel
    rw [h]

end Document

end StyleBlocks
