import StyleBlocks.Proofs.Block.AtomTokens
import StyleBlocks.Proofs.Block.Hosting
import StyleBlocks.Proofs.Block.IndentationRecovery
import StyleBlocks.Proofs.Document.HostText

/-!
# What a block is printed as

The fragments of a relocated style sheet spell its tokens, and the tokens are runs of atoms; so the
fragments are runs of the atoms of the template. Each is made safe by itself, and together they are
what stands in the source between the dropped line and the closing backtick. The one fragment that
is printed as it is holds what stands at the end of the style sheet, and no placeholder gets there.

## Main results

* `Placeholder.Cuts.spell`: fragments that spell tokens cut the indented atoms.
* `Sheet.Fragment.texts_map_hostSafe`: fragments that cut sound atoms, made safe.
* `Hosting.texts_fragments`: the fragments of a block are what stands in the source.
-/

namespace StyleBlocks

open Placeholder Sheet Template

/-! ### Cuts -/

namespace Placeholder

variable {m : List Piece} {ts us : List Text}

/-- Texts that cut atoms are their text, put together. -/
theorem Cuts.texts_eq (h : Cuts ts m) : texts m = ts.flatten := by
  induction ts generalizing m with
  | nil =>
      obtain rfl : m = [] := h
      rfl
  | cons t ts ih =>
      obtain ⟨u, v, rfl, hu, hv⟩ := h
      rw [texts_append, hu, ih hv, List.flatten_cons]

/-- Some texts that cut atoms cut off a run of them. -/
theorem Cuts.exists_append (h : Cuts (ts ++ us) m) : ∃ u v, m = u ++ v ∧ Cuts ts u ∧ Cuts us v := by
  induction ts generalizing m with
  | nil => exact ⟨[], m, rfl, rfl, h⟩
  | cons t ts ih =>
      obtain ⟨u, v, rfl, hu, hv⟩ := h
      obtain ⟨u', v', rfl, hu', hv'⟩ := ih hv
      exact ⟨u ++ u', v', by simp, ⟨u, u', rfl, hu, hu'⟩, hv'⟩

/-- **Fragments that spell tokens cut the indented atoms**, if the tokens cut the atoms. -/
theorem Cuts.spell {front : Nat → Text} {lead : Text} {line : Nat} {gs : List (List Sheet.Token)}
    (h : Cuts (gs.flatten.map Sheet.Token.text) m) (hm : ∀ a ∈ m, IsAtom a)
    (hlead : gs = [] → lead = []) :
    Cuts (Sheet.spell front lead line gs) (chars lead ++ indent front line m) := by
  induction gs generalizing lead line m with
  | nil =>
      obtain rfl : m = [] := h
      rw [hlead rfl]
      rfl
  | cons g gs ih =>
      rw [List.flatten_cons, List.map_append] at h
      obtain ⟨u, v, rfl, hu, hv⟩ := h.exists_append
      have hg : texts u = Sheet.Token.texts g := by
        rw [hu.texts_eq, Sheet.Token.texts, List.flatMap_def]
      have huatom : ∀ a ∈ u, IsAtom a := fun a ha => hm a (List.mem_append_left _ ha)
      have hrest : Cuts (Sheet.spell front [] (line + (texts u).breaks) gs)
          (chars [] ++ indent front (line + (texts u).breaks) v) :=
        ih hv (fun a ha => hm a (List.mem_append_right _ ha)) fun _ => rfl
      refine ⟨chars lead ++ indent front line u, _, ?_, ?_, hg ▸ hrest⟩
      · rw [indent_append huatom, hg]
        simp
      · rw [texts_append, texts_chars, texts_indent huatom, hg]

/-- Atoms without a slash in their text are no placeholders. -/
theorem isLiteral_of_notMem (h : '/' ∉ texts m) (hm : ∀ a ∈ m, IsAtom a) :
    ∀ a ∈ m, a.isLiteral = true := by
  intro a ha
  cases hm a ha with
  | char c => rfl
  | pair c hc => rfl
  | hole i hi =>
      obtain ⟨u, v, rfl⟩ := List.append_of_mem ha
      exact absurd (by simp [create]) h

end Placeholder

namespace Sheet

/-- **Fragments that cut sound atoms, made safe**, are the atoms with their holes filled in, if no
slash is in those that belong to no node. -/
theorem Fragment.texts_map_hostSafe {es : List Text} {fs : List Fragment} {m : List Piece}
    (h : Sound m)
    (hu : Unmarked m) (hcuts : Cuts (fs.map Fragment.text) m)
    (hroot : ∀ f ∈ fs, f.owner = none ∨ f.owner = some .root → '/' ∉ f.text) :
    Fragment.texts (fs.map (Fragment.hostSafe es)) = expand es m := by
  induction fs generalizing m with
  | nil =>
      obtain rfl : m = [] := hcuts
      rfl
  | cons f fs ih =>
      obtain ⟨u, v, rfl, hf, hv⟩ := hcuts
      have hsound := h.of_infix (List.prefix_append u v).isInfix
      have hsafe := Fragment.text_hostSafe es hsound
        (hu.of_infix (List.prefix_append u v).isInfix)
        hf.symm fun ho => isLiteral_of_notMem (hf ▸ hroot f List.mem_cons_self ho) hsound.isAtom
      have hrest := ih (h.of_infix (List.suffix_append u v).isInfix)
        (hu.of_infix (List.suffix_append u v).isInfix) hv fun g hg =>
          hroot g (List.mem_cons_of_mem _ hg)
      rw [Fragment.texts] at hrest ⊢
      rw [List.map_cons, List.flatMap_cons, hsafe, hrest, expand_append]

/-! ### Owners -/

/-- A fragment **belongs to a node** if its owner is one. -/
def Fragment.IsOfNode (f : Fragment) : Prop :=
  ∃ o ≠ Owner.root, f.owner = some o

namespace Printer

variable {p : Printer} {o : Owner}

/-- What a node emits belongs to it. -/
theorem isOfNode_emit (ho : o ≠ .root) (t : Text) : ∀ f ∈ emit o t, f.IsOfNode := by
  intro f hf
  rw [emit] at hf
  split at hf
  · contradiction
  · exact ⟨o, ho, by rw [List.mem_singleton.1 hf]⟩

/-- A mark of a node belongs to it. -/
theorem isOfNode_mark (ho : o ≠ .root) (b : Boundary) (t : Text) : (mark o b t).IsOfNode :=
  ⟨o, ho, rfl⟩

/-- A block belongs to its node if what stands in the block belongs to nodes. -/
theorem isOfNode_block (ho : o ≠ .root) {body : List Fragment} (hbody : ∀ f ∈ body, f.IsOfNode)
    (between after : Text) : ∀ f ∈ block o between body after, f.IsOfNode := by
  simp only [block, List.forall_mem_append, List.forall_mem_singleton]
  exact ⟨⟨⟨isOfNode_emit ho _, hbody⟩, isOfNode_emit ho _⟩, isOfNode_mark ho _ _⟩

/-- The head of an at-rule belongs to it. -/
theorem isOfNode_atRuleHead (h : AtRuleHead) : ∀ f ∈ p.atRuleHead h, f.IsOfNode := by
  simp only [atRuleHead, List.forall_mem_cons, List.forall_mem_append]
  exact ⟨isOfNode_mark (by decide) _ _, isOfNode_emit (by decide) _, isOfNode_emit (by decide) _⟩

mutual

/-- The fragments of a node belong to it or to nodes in it. -/
theorem isOfNode_of_mem_node (p : Printer) (depth : Nat) (first : Bool) :
    ∀ n : Node, ∀ f ∈ p.node depth first n, f.IsOfNode
  | .rule h ns => by
      have hns := isOfNode_of_mem_nodes p (depth + 1) false h.semicolon ns
      simp only [node]
      split
      · simp only [List.forall_mem_append, List.forall_mem_singleton]
        exact ⟨⟨isOfNode_emit (by decide) _, isOfNode_mark (by decide) _ _⟩,
          isOfNode_emit (by decide) _⟩
      · simp only [List.forall_mem_append, List.forall_mem_singleton]
        exact ⟨⟨isOfNode_emit (by decide) _, isOfNode_mark (by decide) _ _⟩,
          isOfNode_block (by decide) hns _ _⟩
  | .atRule h ns => by
      have hns := isOfNode_of_mem_nodes p (depth + 1) false h.semicolon ns
      simp only [node, List.forall_mem_append]
      exact ⟨⟨isOfNode_emit (by decide) _, isOfNode_atRuleHead h⟩,
        isOfNode_block (by decide) hns _ _⟩
  | .atStatement h => by
      simp only [node, List.forall_mem_append]
      exact ⟨⟨isOfNode_emit (by decide) _, isOfNode_atRuleHead h⟩, isOfNode_emit (by decide) _⟩
  | .declaration d => by
      simp only [node, declaration, List.forall_mem_append, List.forall_mem_cons]
      exact ⟨isOfNode_emit (by decide) _, isOfNode_mark (by decide) _ _,
        ⟨isOfNode_emit (by decide) _, isOfNode_emit (by decide) _⟩, isOfNode_emit (by decide) _⟩
  | .comment c => by
      simp only [node, comment, List.forall_mem_append]
      exact ⟨isOfNode_emit (by decide) _, isOfNode_emit (by decide) _⟩

/-- The fragments of nodes belong to these or to nodes in them. -/
theorem isOfNode_of_mem_nodes (p : Printer) (depth : Nat) (first semicolon : Bool) :
    ∀ ns : List Node, ∀ f ∈ p.nodes depth first semicolon ns, f.IsOfNode
  | [] => by simp [nodes]
  | n :: ns => by
      have hn := isOfNode_of_mem_node p depth first n
      have hns := isOfNode_of_mem_nodes p depth false semicolon ns
      have howner : n.owner ≠ .root := by cases n <;> simp [Node.owner]
      simp only [nodes, List.forall_mem_append]
      refine ⟨⟨hn, ?_⟩, hns⟩
      split
      · exact isOfNode_emit howner _
      · simp

end

end Printer

end Sheet

/-! ### Blocks -/

namespace Relocation

variable {r : Relocation} {text : Text} {base : Nat} {c : Char}

/-- Fronts are blank. -/
theorem notMem_front (hindent : r.config.indentations = (Normalized.ofText text base).indentations)
    (hblank : Sheet.Token.isStyleBlank c = false) (k : Nat) :
    c ∉ r.config.indentations.front k := by
  intro hc
  rw [hindent] at hc
  have := Normalized.isIndent_of_mem_front hc
  simp_all [Normalized.isIndent, Sheet.Token.isStyleBlank]

/-- Nothing but blanks and semicolons is printed at the end of a style sheet. -/
theorem notMem_tail (hindent : r.config.indentations = (Normalized.ofText text base).indentations)
    {t : Text} {done pend : List Sheet.Token} (htokens : Token.tokenize t = .ok (done ++ pend))
    (hstray : ∀ k ∈ pend, k.kind = .space ∨ k.kind = .semicolon)
    (hblank : Sheet.Token.isStyleBlank c = false) (hsemi : c ≠ ';') : c ∉ r.tail done pend := by
  have hpend : c ∉ Sheet.Token.texts pend := by
    intro h
    obtain ⟨k, hk, hc⟩ := List.mem_flatMap.1 h
    have hform := Sheet.Token.hasForm_of_mem htokens (List.mem_append_right _ hk)
    rcases hstray k hk with hkind | hkind
    · rw [Sheet.Token.HasForm, hkind] at hform
      simp [hform.2 _ hc] at hblank
    · rw [hform.text_semicolon hkind] at hc
      exact hsemi (List.mem_singleton.1 hc)
  rw [tail, List.mem_append, not_or]
  constructor
  · split
    · exact notMem_front hindent hblank 1
    · exact List.not_mem_nil
  · intro h
    rcases Text.mem_or_exists_of_mem_indentFrom h with h | ⟨n, hn⟩
    · exact hpend h
    · exact notMem_front hindent hblank n hn

/-- A doubled front is blank. -/
theorem notMem_doubledFront
    (hindent : r.config.indentations = (Normalized.ofText text base).indentations)
    (hblank : Sheet.Token.isStyleBlank c = false) (root : Root) : c ∉ r.doubledFront root := by
  rw [doubledFront]
  split
  · exact notMem_front hindent hblank _
  · exact List.not_mem_nil

end Relocation

namespace Hosting

variable {source : Text} {t : Tagged} {n : Normalized}

/-- The atoms of a template behind its dropped line. -/
def kept (H : Hosting RawText.atoms source t n) : List Piece :=
  chars (n.indentations.front 1) ++ indent n.indentations.front 1 H.atoms

/-- What is kept of a template is a run of its atoms. -/
theorem kept_isInfix (H : Hosting RawText.atoms source t n) :
    H.kept <:+: Extraction.atoms RawText.atoms 0 t.quasis := by
  rw [H.parts_eq, chars_append, List.append_assoc]
  exact (List.suffix_append _ _).isInfix

/-- **The fragments of a block** are what stands in the source behind the dropped line. -/
theorem texts_fragments (H : Hosting RawText.atoms source t n) {r : Relocation} {g : Grammar}
    {root : Root}
    {text : Text} {base : Nat} (hsound : Sound (Extraction.atoms RawText.atoms 0 t.quasis))
    (hmark : Unmarked (Extraction.atoms RawText.atoms 0 t.quasis)) (hnormal : n = .ofText text base)
    (hindent : r.config.indentations = n.indentations) (hlines : r.lines = LineMap.ofText n.text)
    (hparse : Sheet.parse g n.text = .ok root) :
    Fragment.texts ((Printer.root { overrides := .corrected } (r.root root)).map
      (Fragment.hostSafe H.gaps)) = expand H.gaps H.kept := by
  have hkept : Sound H.kept := hsound.of_infix H.kept_isInfix
  have hatoms : Sound H.atoms :=
    .of_indent (hkept.of_infix
      (List.suffix_append _ (indent n.indentations.front 1 H.atoms)).isInfix)
  have htrail := Normalized.trailing_eq_front text base
  rw [← hnormal, ← hindent] at htrail
  obtain ⟨done, pend, htokens, hstray, hroot, ⟨gs, hgs, hspell, hlead⟩, hdoubled⟩ :=
    Relocation.spells_root hlines htrail hparse
  have hcuts : Cuts ((done ++ pend).map Sheet.Token.text) H.atoms :=
    cuts_of_tokenize hatoms (H.texts_atoms ▸ htokens)
  -- the style text has no escaped line feed, so no front is doubled
  have hnone : r.doubledFront root = [] := by
    by_contra hne
    rw [List.map_append] at hcuts
    obtain ⟨u, v, hu, hdone, -⟩ := hcuts.exists_append
    have hsuffix := hdoubled hne
    rw [Sheet.Token.texts, List.flatMap_def, ← hdone.texts_eq] at hsuffix
    exact (hatoms.of_infix (hu ▸ (List.prefix_append u v).isInfix)).not_escapedBreak hsuffix
  rw [hnone, List.nil_append] at hroot
  rw [hroot]
  refine Fragment.texts_map_hostSafe hkept (hmark.of_infix H.kept_isInfix) ?_ ?_
  · rw [hspell, hindent]
    exact Cuts.spell (hgs ▸ hcuts) hatoms.isAtom (hindent ▸ hlead)
  · intro f hf howner
    rcases List.mem_append.1 hf with hf | hf
    · obtain ⟨o, ho, hsome⟩ := Printer.isOfNode_of_mem_nodes _ _ _ _ _ f hf
      rw [hsome] at howner
      simp [ho] at howner
    · have htail : '/' ∉ r.tail done pend :=
        Relocation.notMem_tail (hnormal ▸ hindent) htokens hstray rfl (by decide)
      rw [Printer.emit] at hf
      split at hf
      · contradiction
      · rwa [List.mem_singleton.1 hf]

end Hosting

end StyleBlocks
