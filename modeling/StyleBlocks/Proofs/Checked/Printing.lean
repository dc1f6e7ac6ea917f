import StyleBlocks.Document.Printing
import StyleBlocks.Proofs.Checked.Access
import StyleBlocks.Proofs.Document.EditedText

/-!
# Printing with checked access

A text of a node is printed by cutting it at the placeholders in it, from left to right. These are found
one behind the other, so each cut is in front of the next, and between two of them there is one text, which
is escaped as a whole.

## Main results

* `Checked.hostText_eq`: making a text safe for its template does not fault.
* `Checked.fragments_eq`: printing a document does not fault, whatever its blocks are.
-/

namespace StyleBlocks.Checked

open Placeholder Sheet Template

/-- What is printed for a text from the offset `last` on, given the placeholders from there on. -/
def hostTextFrom (expressions : List Text) (t : Text) (last : Nat) : List Found → Option Text
  | [] => do return RawText.escape (← tail last t)
  | f :: fs => do
    let front ← Text.slice? last f.span.start t
    let hole ← match expressions[f.index]? with
      | some e => some e
      | none => (Text.slice? f.span.start f.span.stop t).map RawText.escape
    return RawText.escape front ++ hole ++ (← hostTextFrom expressions t f.span.stop fs)

/-- A text as it can stand in a template with the given holes. -/
def hostText (expressions : List Text) (t : Text) : Option Text :=
  hostTextFrom expressions t 0 (findAll t)

/-- A fragment as it can stand in a template with the given holes. -/
def hostSafe (expressions : List Text) (f : Fragment) : Option Fragment :=
  match f.owner with
  | none | some .root => some f
  | some .comment =>
    match (readFragment? f.text).bind fun i => expressions[i]? with
    | some e => some { f with text := e }
    | none => do return { f with text := ← hostText expressions f.text }
  | some _ => do return { f with text := ← hostText expressions f.text }

/-- The fragments of the style sheet of a block. -/
def rootFragments (b : StyleBlock) : Option (List Fragment) :=
  (Printer.root { overrides := .corrected } b.root).mapM (hostSafe b.expressions)

/-- The fragments of blocks. -/
def blockFragments : List StyleBlock → Option (List Fragment)
  | [] => some []
  | b :: bs => do
    let own ← rootFragments b
    let trailing := if bs.isEmpty then (b.trailing.map (hostFragment .stop)).toList else []
    return hostFragment .start b.leading :: own ++ trailing ++ (← blockFragments bs)

/-- The fragments of a document. -/
def fragments (d : Document) : Option (List Fragment) :=
  if d.blocks.isEmpty then some [{ text := d.source }] else blockFragments d.blocks

/-- What is printed up to the end of a placeholder: the text in front of it, escaped, and its hole. -/
theorem hostTextFrom_cons (es : List Text) (done front v rest : Text) (i : Nat) (fs : List Found) :
    hostTextFrom es (done ++ front ++ v ++ rest) (Text.byteSize done)
        (⟨i, ⟨Text.byteSize (done ++ front), Text.byteSize (done ++ front ++ v)⟩⟩ :: fs) =
      (hostTextFrom es (done ++ front ++ v ++ rest) (Text.byteSize (done ++ front ++ v)) fs).map fun u =>
        RawText.escape front ++ ((Piece.hole i v).resolve RawText.escape es ++ u) := by
  have hfront := Text.slice?_append done front (v ++ rest)
  rw [← List.append_assoc] at hfront
  simp only [hostTextFrom, hfront, Text.slice?_append, Piece.resolve, Option.bind_eq_bind,
    Option.bind_some]
  generalize hostTextFrom es _ _ fs = back
  cases es[i]? <;> cases back <;> simp

/-- What is behind a piece is split as the whole is. -/
theorem isSplit_of_cons {p : Piece} {ps : List Piece} (h : IsSplit (p :: ps)) : IsSplit ps :=
  ⟨h.chain.tail, fun i u hu => h.isTokenText i u (List.mem_cons_of_mem p hu)⟩

/-- What is printed for split pieces is what is printed for the texts between placeholders. -/
theorem hostTextFrom_eq (es : List Text) {ps : List Piece} (done : Text) (h : IsSplit ps) :
    hostTextFrom es (done ++ ps.flatMap Piece.text) (Text.byteSize done)
        (foundFrom (Text.byteSize done) ps) =
      some (ps.flatMap (Piece.resolve RawText.escape es)) := by
  match ps with
  | [] =>
      have hend := tail_append done []
      rw [List.append_nil] at hend
      simp [foundFrom, hostTextFrom, hend, RawText.escape]
  | [.literal u] => simp [foundFrom, hostTextFrom, Piece.text, Piece.resolve]
  | .hole i v :: ps =>
      have ih := hostTextFrom_eq es (done ++ v) (isSplit_of_cons h)
      have hcons := hostTextFrom_cons es done [] v (ps.flatMap Piece.text) i
        (foundFrom (Text.byteSize (done ++ v)) ps)
      rw [List.append_nil, ih] at hcons
      simpa [foundFrom, Piece.text, RawText.escape] using hcons
  | .literal u :: .hole i v :: ps =>
      have ih := hostTextFrom_eq es (done ++ u ++ v) (isSplit_of_cons (isSplit_of_cons h))
      have hcons := hostTextFrom_cons es done u v (ps.flatMap Piece.text) i
        (foundFrom (Text.byteSize (done ++ u ++ v)) ps)
      rw [ih] at hcons
      simpa [foundFrom, Piece.text, Piece.resolve, Nat.add_assoc] using hcons
  | .literal u :: .literal v :: ps => exact absurd (h.chain.rel rfl) (by simp [Piece.isLiteral])

/-- **Making a text safe for its template does not fault.** -/
theorem hostText_eq (es : List Text) (t : Text) :
    hostText es t = some (StyleBlocks.hostText es t) := by
  have h := hostTextFrom_eq es [] (isSplit_pieces t)
  rwa [texts_pieces] at h

/-- A fragment is made safe without a fault. -/
theorem hostSafe_eq (es : List Text) : hostSafe es = fun f => some (f.hostSafe es) := by
  funext ⟨text, owner, boundary⟩
  simp only [hostSafe, Fragment.hostSafe, hostText_eq]
  cases owner with
  | none => rfl
  | some o =>
      cases o with
      | comment =>
          simp only
          cases (readFragment? text).bind fun i => es[i]? <;> rfl
      | _ => rfl

/-- The fragments of a style sheet are printed without a fault. -/
theorem rootFragments_eq (b : StyleBlock) : rootFragments b = some b.rootFragments := by
  rw [rootFragments, StyleBlock.rootFragments, hostSafe_eq]
  exact List.mapM_pure

/-- The fragments of blocks are printed without a fault. -/
theorem blockFragments_eq (bs : List StyleBlock) :
    blockFragments bs = some (Document.blockFragments bs) := by
  induction bs with
  | nil => rfl
  | cons b bs ih => simp [blockFragments, Document.blockFragments, rootFragments_eq, ih]

/-- **Printing a document does not fault.** -/
theorem fragments_eq (d : Document) : fragments d = some d.fragments := by
  rw [fragments, Document.fragments]
  split
  · rfl
  · exact blockFragments_eq d.blocks

end StyleBlocks.Checked
