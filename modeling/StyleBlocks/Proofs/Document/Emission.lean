import StyleBlocks.Document.Assembly
import StyleBlocks.Document.Printing
import StyleBlocks.Proofs.Block.RawAtoms

/-!
# What fragments are printed as

The text of a fragment that has been made safe for its template does not show which of it came from
holes and which from the style sheet. `emitted` keeps both apart: it is a list of pieces, the holes that
placeholders have become and the atoms of the escaped text between them. Put together, these are the
text that is printed.

## Main results

* `Sheet.Fragment.texts_emitted`: the pieces that a fragment is printed as are its text, made safe.
* `StyleBlock.texts_emitted`: the pieces that a block is printed as are its text.
* `Assembly.exists_readBlock_of_mem`: every block of a document has been read from a template.
-/

namespace StyleBlocks

open Placeholder Sheet Template

/-- The pieces that a piece of style text is printed as: the hole that it stands for, or its escaped
text. -/
def Placeholder.Piece.emitted (es : List Text) : Piece → List Piece
  | .literal t => RawText.atoms (RawText.escape t)
  | .hole i t =>
    match es[i]? with
    | some e => [.hole i e]
    | none => RawText.atoms (RawText.escape t)

/-- The pieces that a style text is printed as. -/
def Placeholder.emitted (es : List Text) (t : Text) : List Piece :=
  (pieces t).flatMap (Piece.emitted es)

/-- The pieces that a fragment is **printed as**. A comment that is a placeholder as a whole, blanks
aside, is its hole. -/
def Sheet.Fragment.emitted (es : List Text) (f : Fragment) : List Piece :=
  match f.owner with
  | none | some .root => RawText.atoms f.text
  | some .comment =>
    match (readFragment? f.text).bind fun i => es[i]?.map (Piece.hole i) with
    | some hole => [hole]
    | none => Placeholder.emitted es f.text
  | some _ => Placeholder.emitted es f.text

/-- The pieces that the style sheet of a block is printed as. -/
def StyleBlock.emitted (b : StyleBlock) : List Piece :=
  (Printer.root { overrides := .corrected } b.root).flatMap (Fragment.emitted b.expressions)

/-! ### Texts -/

/-- The pieces that a piece is printed as have its text, escaped or filled in. -/
theorem Placeholder.Piece.texts_emitted (es : List Text) (a : Piece) :
    texts (a.emitted es) = a.resolve RawText.escape es := by
  cases a with
  | literal t => exact RawText.texts_atoms _
  | hole i t =>
      rw [Piece.emitted, Piece.resolve]
      cases es[i]? with
      | none => exact RawText.texts_atoms _
      | some e => simp

/-- The pieces that a style text is printed as have the text that the host gets. -/
theorem Placeholder.texts_emitted (es : List Text) (t : Text) :
    texts (emitted es t) = hostText es t := by
  rw [emitted, hostText, resolve]
  induction pieces t with
  | nil => rfl
  | cons a ps ih =>
      rw [List.flatMap_cons, List.flatMap_cons, texts_append, Piece.texts_emitted, ih]

/-- **The pieces that a fragment is printed as** are its text, made safe. -/
theorem Sheet.Fragment.texts_emitted (es : List Text) (f : Fragment) :
    Placeholder.texts (f.emitted es) = (f.hostSafe es).text := by
  obtain ⟨t, owner, boundary⟩ := f
  match owner with
  | none | some .root => exact RawText.texts_atoms t
  | some .rule | some .atRule | some .declaration => exact Placeholder.texts_emitted es t
  | some .comment =>
      simp only [emitted, hostSafe]
      cases readFragment? t with
      | none => exact Placeholder.texts_emitted es t
      | some i =>
          cases he : es[i]? with
          | none => simpa [he] using Placeholder.texts_emitted es t
          | some e => simp [he]

/-- **The pieces that a block is printed as** are its text. -/
theorem StyleBlock.texts_emitted (b : StyleBlock) :
    texts b.emitted = Fragment.texts b.rootFragments := by
  rw [emitted, rootFragments]
  induction Printer.root { overrides := .corrected } b.root with
  | nil => rfl
  | cons f fs ih =>
      rw [List.flatMap_cons, texts_append, Fragment.texts_emitted, ih]
      rfl

/-! ### The blocks of a document -/

namespace Assembly

variable {a : Assembly} {origin : Option Text} {source : Text}

/-- The style text of a template. -/
def styleText (source : Text) (t : Tagged) : Text :=
  (Normalized.ofText (Extraction.ofTemplate t source).text t.base).text

/-- A block **has been read** from one of the templates that hold style text. -/
def IsReadFrom (a : Assembly) (origin : Option Text) (source : Text) (ts : List Tagged)
    (b : StyleBlock) : Prop :=
  ∃ t ∈ ts, a.selects t = true ∧ ∃ config, b.config = some config ∧
    a.readBlock origin source t = .ok (b.root, config)

/-- Giving the text behind the last block to it changes nothing else about blocks. -/
theorem exists_of_mem_closeBlocks {trailing : Text} {bs : List StyleBlock} {b : StyleBlock}
    (h : b ∈ closeBlocks trailing bs) :
    ∃ c ∈ bs, b.root = c.root ∧ b.config = c.config := by
  fun_induction closeBlocks trailing bs with
  | case1 => contradiction
  | case2 c =>
      obtain rfl := List.mem_singleton.1 h
      exact ⟨c, List.mem_singleton_self c, rfl, rfl⟩
  | case3 c d bs ih =>
      rcases List.mem_cons.1 h with rfl | h
      · exact ⟨b, List.mem_cons_self, rfl, rfl⟩
      · obtain ⟨e, he, hroot, hconfig⟩ := ih h
        exact ⟨e, List.mem_cons_of_mem _ he, hroot, hconfig⟩

/-- One more template leaves every block read from a template. -/
theorem isReadFrom_add {ts : List Tagged} {t : Tagged} {lines : LineMap} {p : Progress}
    (ht : t ∈ ts) (hsel : a.selects t = true)
    (hp : ∀ b ∈ p.blocks, a.IsReadFrom origin source ts b) :
    ∀ b ∈ (a.add origin lines source p t).blocks, a.IsReadFrom origin source ts b := by
  rw [add]
  split
  · exact hp
  split
  · exact hp
  split
  · exact hp
  next root config hread =>
  intro b hb
  rcases List.mem_append.1 hb with hb | hb
  · exact hp b hb
  · obtain rfl := List.mem_singleton.1 hb
    exact ⟨t, ht, hsel, config, rfl, hread⟩

/-- **Every block of a document has been read from a template** that holds style text. -/
theorem exists_readBlock_of_mem {ts : List Tagged} {b : StyleBlock}
    (hb : b ∈ (a.documentOf origin source ts).blocks) : a.IsReadFrom origin source ts b := by
  have hrun : ∀ (us : List Tagged) (p : Progress), (∀ t ∈ us, t ∈ ts ∧ a.selects t = true) →
      (∀ b ∈ p.blocks, a.IsReadFrom origin source ts b) →
      ∀ b ∈ (us.foldl (a.add origin (LineMap.ofText source) source) p).blocks,
        a.IsReadFrom origin source ts b := by
    intro us
    induction us with
    | nil => exact fun p _ hp => hp
    | cons t us ih =>
        intro p hus hp
        obtain ⟨ht, hsel⟩ := hus t List.mem_cons_self
        exact ih _ (fun u hu => hus u (List.mem_cons_of_mem _ hu)) (isReadFrom_add ht hsel hp)
  obtain ⟨c, hc, hroot, hconfig⟩ := exists_of_mem_closeBlocks hb
  obtain ⟨t, ht, hsel, config, hcc, hread⟩ := hrun _ {}
    (fun t ht => List.mem_filter.1 ht) (by simp) c hc
  exact ⟨t, ht, hsel, config, hconfig.trans hcc, hroot ▸ hread⟩

end Assembly

end StyleBlocks
