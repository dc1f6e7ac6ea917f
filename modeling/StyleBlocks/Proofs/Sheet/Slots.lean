import Mathlib.Data.List.Basic
import StyleBlocks.Sheet.Edit
import StyleBlocks.Sheet.Fragment

/-!
# The printed texts of a style sheet

A text of a node that is printed has a **slot**: it stands in one fragment, by itself or with a mark that
the printer puts there. The slots of a node are its texts and the raws that are set. The parameters of
an at-rule have one if what stands in front of them is set, as the spacing in their front depends on
them otherwise.

Putting another text in a slot is an edit, and leaves everything else of the style sheet as it is. The
correction that was made for the text before stays and does not hold any more.

## Main results

* `Node.modify?_setTextAt`: a text at a path can be changed if its node is reached.
* `Node.setTextAt_self`, `Node.setTextAt_setTextAt`: changing a text back restores the nodes.
-/

namespace StyleBlocks.Sheet

/-- Changing an element of a list to itself changes nothing. -/
theorem modify_eq_self {α : Type} {l : List α} {i : Nat} {a : α} {f : α → α} (h : l[i]? = some a)
    (hf : f a = a) : l.modify i f = l := by
  obtain ⟨hi, rfl⟩ := List.getElem?_eq_some_iff.1 h
  simp [List.modify_eq_set_getElem?, hi, hf]

namespace Corrections

variable {cs : Corrections} {key : RawKey} {t : Text}

/-- What is **shown** for a text: the correction for it, if it still holds, or the text itself. -/
def shown (cs : Corrections) (key : RawKey) (t : Text) : Text :=
  (cs.get? key t).getD t

/-- A text for which no correction was made is shown as it is. -/
theorem shown_of_stale (h : ∀ c, cs.find? key = some c → c.original ≠ t) : cs.shown key t = t := by
  rw [shown, get?]
  cases hc : cs.find? key with
  | none => rfl
  | some c => simp [h c hc]

end Corrections

/-! ### Slots -/

/-- A **slot**: a text that is printed, and the fragment that it is printed in. -/
structure Slot where
  /-- What the text belongs to. -/
  owner : Owner
  /-- The corrections of its owner. -/
  corrections : Corrections
  /-- The name of the text. -/
  key : RawKey
  /-- What stands in front of the text in its fragment. -/
  front : Text
  /-- What stands behind the text in its fragment. -/
  back : Text
  /-- The text. -/
  text : Text

/-- The fragment of a slot, with a text in it. -/
def Slot.fragment (s : Slot) (t : Text) : Fragment :=
  { text := s.front ++ s.corrections.shown s.key t ++ s.back, owner := some s.owner }

namespace Node

/-- The slot of a node with a name, if it has a text of that name and this is printed. -/
def slot? (key : RawKey) : Node → Option Slot
  | rule h _ =>
    match key with
    | .before => h.before.map (.mk .rule h.corrections key [] [])
    | .value => some (.mk .rule h.corrections key [] [] h.selector)
    | .between => h.between.map (.mk .rule h.corrections key [] (if h.mixin then [] else ['{']))
    | .after => if h.mixin then none else h.after.map (.mk .rule h.corrections key [] [])
    | _ => none
  | atRule h _ =>
    match key with
    | .before => h.before.map (.mk .atRule h.corrections key [] [])
    | .afterName => h.afterName.map (.mk .atRule h.corrections key [] [])
    | .value => h.afterName.map fun _ => .mk .atRule h.corrections key [] [] h.params
    | .between => h.between.map (.mk .atRule h.corrections key [] ['{'])
    | .after => h.after.map (.mk .atRule h.corrections key [] [])
    | _ => none
  | atStatement h =>
    match key with
    | .before => h.before.map (.mk .atRule h.corrections key [] [])
    | .afterName => h.afterName.map (.mk .atRule h.corrections key [] [])
    | .value => h.afterName.map fun _ => .mk .atRule h.corrections key [] [] h.params
    | .between => h.between.map (.mk .atRule h.corrections key [] [])
    | _ => none
  | declaration d =>
    match key with
    | .before => d.before.map (.mk .declaration d.corrections key [] [])
    | .prop => some (.mk .declaration d.corrections key [] [] d.prop)
    | .between => d.between.map (.mk .declaration d.corrections key [] [])
    | .value => some (.mk .declaration d.corrections key [] [] d.value)
    | .after => d.after.map (.mk .declaration d.corrections key [] [])
    | _ => none
  | comment c =>
    match key with
    | .before => c.before.map (.mk .comment c.corrections key [] [])
    | .value =>
      if c.inline then some (.mk .comment c.corrections key ['/', '/'] [] c.text)
      else some (.mk .comment c.corrections key ['/', '*'] ['*', '/'] c.text)
    | _ => none

/-- Replaces the text of a node with a name. -/
def setText (key : RawKey) (t : Text) : Node → Node
  | rule h ns =>
    match key with
    | .before => rule { h with before := some t } ns
    | .value => rule { h with selector := t } ns
    | .between => rule { h with between := some t } ns
    | .after => rule { h with after := some t } ns
    | _ => rule h ns
  | atRule h ns => atRule (atRuleHead key t h) ns
  | atStatement h => atStatement (atRuleHead key t h)
  | declaration d =>
    match key with
    | .before => declaration { d with before := some t }
    | .prop => declaration { d with prop := t }
    | .between => declaration { d with between := some t }
    | .value => declaration { d with value := t }
    | .after => declaration { d with after := some t }
    | _ => declaration d
  | comment c =>
    match key with
    | .before => comment { c with before := some t }
    | .value => comment { c with text := t }
    | _ => comment c
where
  /-- Replaces a text in the head of an at-rule. -/
  atRuleHead (key : RawKey) (t : Text) (h : AtRuleHead) : AtRuleHead :=
    match key with
    | .before => { h with before := some t }
    | .afterName => { h with afterName := some t }
    | .value => { h with params := t }
    | .between => { h with between := some t }
    | .after => { h with after := some t }
    | .prop => h

end Node

/-- The change that replaces the text with a name. -/
def Change.ofText (o : Owner) (key : RawKey) (t : Text) : Change :=
  match key with
  | .before => .before (some t)
  | .between => .between (some t)
  | .after => .after (some t)
  | .afterName => .afterName (some t)
  | .prop => .prop t
  | .value =>
    match o with
    | .rule => .selector t
    | .atRule => .params t
    | .declaration => .value t
    | _ => .text t

namespace Node

variable {key : RawKey} {t u : Text} {n m : Node} {s : Slot} {ns : List Node} {i : Nat} {path : Path}

/-- A text that is set leaves the owner as it is. -/
@[simp] theorem owner_setText : (n.setText key t).owner = n.owner := by
  cases n <;> cases key <;> rfl

/-- A text that is set leaves it as it is if a semicolon is needed. -/
@[simp] theorem needsSemicolon_setText : (n.setText key t).needsSemicolon = n.needsSemicolon := by
  cases n <;> cases key <;> rfl

/-- Of two texts with the same name, the last one that is set stays. -/
@[simp] theorem setText_setText : (n.setText key t).setText key u = n.setText key u := by
  cases n <;> cases key <;> rfl

/-- A slot is the one that was asked for. -/
theorem owner_of_slot? (h : n.slot? key = some s) : s.owner = n.owner := by
  cases n <;> cases key <;>
    simp only [slot?, Option.map_eq_some_iff, Option.ite_none_left_eq_some, reduceCtorEq,
      Option.some.injEq] at h <;> grind [owner]

/-- The text in a slot is the text that can be replaced there. -/
theorem setText_self (h : n.slot? key = some s) : n.setText key s.text = n := by
  rcases n with ⟨⟨⟩, ns⟩ | ⟨⟨⟩, ns⟩ | ⟨⟨⟩⟩ | ⟨⟨⟩⟩ | ⟨⟨⟩⟩ <;> cases key <;>
    simp only [slot?, Option.map_eq_some_iff, Option.ite_none_left_eq_some, reduceCtorEq,
      Option.some.injEq] at h <;> grind [setText, setText.atRuleHead]

/-- A slot keeps everything but its text when this is replaced. -/
theorem slot?_setText (t : Text) (h : n.slot? key = some s) :
    (n.setText key t).slot? key = some { s with text := t } := by
  cases n <;> cases key <;>
    simp only [slot?, Option.map_eq_some_iff, Option.ite_none_left_eq_some, reduceCtorEq,
      Option.some.injEq] at h <;> grind [slot?, setText, setText.atRuleHead]

/-- A text that has a slot can be changed. -/
theorem applyTo?_ofText (t : Text) (h : n.slot? key = some s) :
    (Change.ofText n.owner key t).applyTo? n = some (n.setText key t) := by
  cases n <;> cases key <;> first | rfl | simp [slot?] at h

/-! ### Paths -/

/-- The nodes in the block of a node, if it has a block and this is printed. -/
def printedBlock? : Node → Option (List Node)
  | rule h ns => if h.mixin then none else some ns
  | atRule _ ns => some ns
  | _ => none

/-- The node at a path among some siblings, if the printer reaches it: every node on the way has a block
that is printed. -/
def reached? (ns : List Node) : Path → Option Node
  | [] => none
  | [i] => ns[i]?
  | i :: j :: p => do reached? (← (← ns[i]?).printedBlock?) (j :: p)

/-- Replaces the text with a name of the node at a path. -/
def setTextAt (key : RawKey) (t : Text) : Path → List Node → List Node
  | [], ns => ns
  | [i], ns => ns.modify i (setText key t)
  | i :: j :: p, ns => ns.modify i fun n => n.withChildren (setTextAt key t (j :: p) n.children)

/-- A block that is printed has a node around it, and can be replaced there. -/
theorem of_printedBlock? (h : n.printedBlock? = some ns) :
    n.block? = some ns ∧ n.children = ns ∧ n.withChildren ns = n ∧
      ∀ ms, (n.withChildren ms).printedBlock? = some ms := by
  cases n with
  | rule h' ms => grind [printedBlock?, block?, children, withChildren]
  | atRule h' ms => grind [printedBlock?, block?, children, withChildren]
  | _ => contradiction

/-- A path of one index changes a node of the list. -/
theorem modify?_singleton (f : Node → Option Node) (ns : List Node) (i : Nat) :
    modify? f ns [i] = do return ns.set i (← f (← ns[i]?)) := by
  rfl

/-- A longer path changes a node in the block of a node of the list. -/
theorem modify?_cons_cons (f : Node → Option Node) (ns : List Node) (i j : Nat) (p : Path) :
    modify? f ns (i :: j :: p) = do
      let n ← ns[i]?
      let inner ← modify? f (← n.block?) (j :: p)
      return ns.set i (n.withChildren inner) := by
  cases hl : (j :: p).getLast? with
  | none => simp at hl
  | some k =>
      simp [modify?, editAround?, editBlock?, List.getLast?_cons_cons, hl]

/-- A node on the way to a node that is reached. -/
theorem exists_of_reached? {j : Nat} (h : reached? ns (i :: j :: path) = some n) :
    ∃ m ms, ns[i]? = some m ∧ m.printedBlock? = some ms ∧ reached? ms (j :: path) = some n := by
  simpa [reached?, Option.bind_eq_some_iff] using h

/-- What is reached at an index can be replaced there. -/
theorem modify_eq_set (f : Node → Node) (h : ns[i]? = some m) : ns.modify i f = ns.set i (f m) := by
  simp [List.modify_eq_set_getElem?, h]

/-- **A text of a node that is reached can be changed**, if it has a slot. -/
theorem modify?_setTextAt (t : Text) (hn : reached? ns path = some n) (hs : n.slot? key = some s) :
    modify? (Change.ofText n.owner key t).applyTo? ns path = some (setTextAt key t path ns) := by
  induction path generalizing ns with
  | nil => contradiction
  | cons i path ih =>
      cases path with
      | nil =>
          rw [modify?_singleton, show ns[i]? = some n from hn, setTextAt, modify_eq_set _ hn]
          simp [applyTo?_ofText t hs]
      | cons j path =>
          obtain ⟨m, ms, hm, hms, hn⟩ := exists_of_reached? hn
          obtain ⟨hblock, hchildren, -, -⟩ := of_printedBlock? hms
          rw [modify?_cons_cons, hm, setTextAt, modify_eq_set _ hm, hchildren]
          simp [hblock, ih hn]

/-- Changing a text leaves its node within reach. -/
theorem reached?_setTextAt (t : Text) (hn : reached? ns path = some n) :
    reached? (setTextAt key t path ns) path = some (n.setText key t) := by
  induction path generalizing ns with
  | nil => contradiction
  | cons i path ih =>
      cases path with
      | nil =>
          rw [setTextAt, reached?, List.getElem?_modify_eq, show ns[i]? = some n from hn]
          rfl
      | cons j path =>
          obtain ⟨m, ms, hm, hms, hn⟩ := exists_of_reached? hn
          obtain ⟨-, hchildren, -, hprinted⟩ := of_printedBlock? hms
          simp [setTextAt, reached?, hm, hprinted, hchildren, ih hn]

/-- Of two changes of one text the later one counts. -/
theorem setTextAt_setTextAt :
    setTextAt key u path (setTextAt key t path ns) = setTextAt key u path ns := by
  induction path generalizing ns with
  | nil => rfl
  | cons i path ih =>
      cases path with
      | nil =>
          rw [setTextAt, setTextAt, setTextAt, List.modify_modify_eq]
          exact congrArg (List.modify ns i) (funext fun n => setText_setText)
      | cons j path =>
          rw [setTextAt, setTextAt, setTextAt, List.modify_modify_eq]
          refine congrArg (List.modify ns i) (funext fun n => ?_)
          cases n <;> simp [withChildren, children, ih]

/-- **Changing a text to itself** changes nothing. -/
theorem setTextAt_self (hn : reached? ns path = some n) (hs : n.slot? key = some s) :
    setTextAt key s.text path ns = ns := by
  induction path generalizing ns with
  | nil => contradiction
  | cons i path ih =>
      cases path with
      | nil =>
          exact modify_eq_self hn (setText_self hs)
      | cons j path =>
          obtain ⟨m, ms, hm, hms, hn⟩ := exists_of_reached? hn
          obtain ⟨-, hchildren, hsame, -⟩ := of_printedBlock? hms
          exact modify_eq_self hm (by rw [hchildren, ih hn, hsame])

end Node

/-! ### Style sheets -/

namespace Root

variable {r : Root} {key : RawKey} {t u : Text} {path : Path} {s : Slot}

/-- The slot with a name of the node at a path. The empty path names the style sheet, which has a text
behind its last node. -/
def slot? (r : Root) (key : RawKey) : Path → Option Slot
  | [] =>
    match key with
    | .after => r.after.map (.mk .root r.corrections key [] [])
    | _ => none
  | i :: p => do (← Node.reached? r.nodes (i :: p)).slot? key

/-- Replaces the text with a name of the node at a path. -/
def setText (key : RawKey) (t : Text) (path : Path) (r : Root) : Root :=
  match path with
  | [] => { r with after := some t }
  | i :: p => { r with nodes := Node.setTextAt key t (i :: p) r.nodes }

/-- A slot of a style sheet is its own or one of a node that is reached. -/
theorem exists_of_slot? {i : Nat} (h : r.slot? key (i :: path) = some s) :
    ∃ n, Node.reached? r.nodes (i :: path) = some n ∧ n.slot? key = some s :=
  Option.bind_eq_some_iff.1 h

/-- Of two changes of one text the later one counts. -/
theorem setText_setText :
    (r.setText key t path).setText key u path = r.setText key u path := by
  cases path with
  | nil => rfl
  | cons i p => simp [setText, Node.setTextAt_setTextAt]

/-- Changing a text to itself changes nothing. -/
theorem setText_self (h : r.slot? key path = some s) : r.setText key s.text path = r := by
  cases path with
  | nil =>
      cases key <;> simp only [slot?, reduceCtorEq, Option.map_eq_some_iff] at h
      obtain ⟨t, ht, rfl⟩ := h
      rw [setText, ← ht]
  | cons i p =>
      obtain ⟨n, hn, hs⟩ := exists_of_slot? h
      rw [setText, Node.setTextAt_self hn hs]

/-- A slot keeps everything but its text when this is replaced. -/
theorem slot?_setText (t : Text) (h : r.slot? key path = some s) :
    (r.setText key t path).slot? key path = some { s with text := t } := by
  cases path with
  | nil =>
      cases key <;> simp only [slot?, reduceCtorEq, Option.map_eq_some_iff] at h
      obtain ⟨u, hu, rfl⟩ := h
      rfl
  | cons i p =>
      obtain ⟨n, hn, hs⟩ := exists_of_slot? h
      exact Option.bind_eq_some_iff.2
        ⟨_, Node.reached?_setTextAt t hn, Node.slot?_setText t hs⟩

end Root

end StyleBlocks.Sheet
