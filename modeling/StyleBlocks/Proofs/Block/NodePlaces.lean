import StyleBlocks.Proofs.Block.Placement
import StyleBlocks.Proofs.Location.Agreement
import StyleBlocks.Proofs.Sheet.NodeSpans
import StyleBlocks.Proofs.Sheet.Rendering

/-!
# Where nodes stand in the host

A relocation moves the range of every node to the host. It is not monotone within placeholders, but
nodes start and end at seams, and a seam lies behind a placeholder, in front of it, or behind its first
character, with which a comment in front of it can end. There the places of the host are in the same
order, and so the nodes nest in the host as they nest in the style text.

## Main results

* `Hosting.exists_meets`: a seam of the style text has a place in the host.
* `Hosting.Meets.le`: places in the host are in the order of the seams.
* `Relocation.nest_nodes`: nodes that nest do so in the host.
-/

namespace StyleBlocks

open Placeholder Sheet Template

/-! ### Cuts of atoms -/

namespace Placeholder

/-- A cut of the text of atoms stands between two of them, or within a placeholder. -/
theorem exists_split_of_texts {m : List Piece} (hm : ∀ a ∈ m, Relocation.IsPlain a) {p s : Text}
    (h : texts m = p ++ s) :
    ∃ u v q, m = u ++ v ∧ p = texts u ++ q ∧
      (q = [] ∨ ∃ i v' q', v = .hole i (create i) :: v' ∧ q ≠ [] ∧ q' ≠ [] ∧
        create i = q ++ q' ∧ s = q' ++ texts v') := by
  induction m generalizing p with
  | nil => exact ⟨[], [], [], rfl, (List.append_eq_nil_iff.1 h.symm).1, Or.inl rfl⟩
  | cons a m ih =>
      have ih := fun {p} => @ih (fun b hb => hm b (List.mem_cons_of_mem _ hb)) p
      by_cases hp : p = []
      · exact ⟨[], a :: m, [], rfl, hp, Or.inl rfl⟩
      rw [texts_cons] at h
      rcases List.append_eq_append_iff.1 h with ⟨q, rfl, hq⟩ | ⟨q, ha, hs⟩
      · obtain ⟨u, v, x, rfl, rfl, hx⟩ := ih hq
        exact ⟨a :: u, v, x, rfl, by simp, hx⟩
      · by_cases hq : q = []
        · subst hq
          rw [List.append_nil] at ha
          exact ⟨[a], m, [], rfl, by simp [ha], Or.inl rfl⟩
        · rcases hm a List.mem_cons_self with ⟨c, rfl⟩ | ⟨i, rfl⟩
          · have hlen := congrArg List.length ha
            have := List.length_pos_iff.2 hp
            have := List.length_pos_iff.2 hq
            simp only [text_literal, List.length_singleton, List.length_append] at hlen
            omega
          · exact ⟨[], _, p, rfl, rfl, Or.inr ⟨i, m, q, rfl, hp, hq, ha, hs⟩⟩

/-- No placeholder holds a blank, a semicolon or a brace. -/
theorem notMem_create_of_blank {c : Char}
    (h : Sheet.Token.isStyleBlank c = true ∨ c ∈ [';', '{', '}']) (i : Nat) : c ∉ create i := by
  have hc : c ∈ [' ', '\t', '\n', '\r', '\x0c', ';', '{', '}'] := by
    simp only [Sheet.Token.isStyleBlank, Bool.or_eq_true, beq_iff_eq, List.mem_cons,
      List.not_mem_nil, or_false] at h ⊢
    tauto
  have hall : [' ', '\t', '\n', '\r', '\x0c', ';', '{', '}'].all
      (fun d => d.isDigit = false ∧ d ∉ '/' :: '*' :: ':' :: mark) = true := by decide
  obtain ⟨hdigit, hmark⟩ := of_decide_eq_true (List.all_eq_true.1 hall c hc)
  exact notMem_create hdigit hmark i

/-- A part of a placeholder that ends in a slash, in front of its end, is its first character. -/
theorem eq_nil_of_create_eq {i : Nat} {x q : Text} (h : create i = x ++ '/' :: q) (hq : q ≠ []) :
    x = [] := by
  have hdigits : '/' ∉ Text.ofNat i := fun hc =>
    absurd (isDigit_of_mem_ofNat hc) (show ¬ Char.isDigit '/' = true by decide)
  have hinner : '/' ∉ '*' :: mark ++ ':' :: Text.ofNat i ++ ['*'] := by
    have hmark : '/' ∉ mark := by decide
    simp [hmark, hdigits]
  have hcreate : create i = '/' :: (('*' :: mark ++ ':' :: Text.ofNat i ++ ['*']) ++ ['/']) := by
    simp [create]
  generalize '*' :: mark ++ ':' :: Text.ofNat i ++ ['*'] = inner at hinner hcreate
  cases x with
  | nil => rfl
  | cons c x =>
      rw [hcreate, List.cons_append, List.cons.injEq] at h
      rcases List.append_eq_append_iff.1 h.2 with ⟨y, hy, hrest⟩ | ⟨y, hy, hrest⟩
      · have hlen := congrArg List.length hrest
        have := List.length_pos_iff.2 hq
        simp only [List.length_append, List.length_cons, List.length_nil] at hlen
        omega
      · cases y with
        | nil => exact absurd (List.cons.inj hrest).2 hq
        | cons d y =>
            obtain ⟨rfl, -⟩ := List.cons.inj hrest
            exact absurd (by simp [hy]) hinner

/-- **A seam in the text of atoms** lies between two of them, or behind the first character of a
placeholder. -/
theorem exists_split_of_isSeam {m : List Piece} (hm : ∀ a ∈ m, Relocation.IsPlain a) {p s : Text}
    (h : texts m = p ++ s) (hseam : IsSeam p s) :
    ∃ u v q, m = u ++ v ∧ p = texts u ++ q ∧
      (q = [] ∨ q = ['/'] ∧ ∃ i v', v = .hole i (create i) :: v') := by
  obtain ⟨u, v, q, rfl, rfl, hq⟩ := exists_split_of_texts hm h
  refine ⟨u, v, q, rfl, rfl, hq.imp_right ?_⟩
  rintro ⟨i, v', q', rfl, hne, hne', hcreate, rfl⟩
  refine ⟨?_, i, v', rfl⟩
  obtain ⟨x, c, hx⟩ := (List.eq_nil_or_concat q).resolve_left hne
  obtain ⟨e, y, hy⟩ := List.exists_cons_of_ne_nil hne'
  rw [List.concat_eq_append] at hx
  rcases hseam with hnil | hnil | ⟨d, hlast, hd⟩ | ⟨d, hhead, hd⟩
  · exact absurd (List.append_eq_nil_iff.1 hnil).2 hne
  · exact absurd (List.append_eq_nil_iff.1 hnil).1 hne'
  · obtain rfl : c = d := by simpa [hx] using hlast
    have hmem : c ∈ create i := by simp [hcreate, hx]
    obtain rfl : c = '/' := by
      by_contra hslash
      refine notMem_create_of_blank (hd.imp_right fun hd => ?_) i hmem
      simpa [hslash] using hd
    rw [hx, List.append_assoc, List.singleton_append] at hcreate
    rw [hx, eq_nil_of_create_eq hcreate hne', List.nil_append]
  · obtain rfl : e = d := by simpa [hy] using hhead
    have hmem : e ∈ create i := by simp [hcreate, hy]
    exact absurd hmem (notMem_create_of_blank (hd.imp_right fun hd => by simp [hd]) i)

end Placeholder

/-! ### Places that meet -/

namespace Hosting

variable {source : Text} {t : Tagged} {n : Normalized} (H : Hosting chars source t n)

/-- An offset of the normalized text **meets** an offset of the source if both lie behind the same
atoms, or behind the first character of what follows these, in the one text a placeholder and in the
other its hole. -/
def Meets (o h : Nat) : Prop :=
  ∃ u v d, H.atoms = u ++ v ∧ o = Text.byteSize (texts u) + d ∧ h = Text.byteSize (H.upTo u) + d ∧
    (d = 0 ∨ d = 1 ∧ ∃ i v', v = .hole i (create i) :: v')

/-- The atoms of a template that is read as a block are plain. -/
theorem isPlain : ∀ a ∈ H.atoms, Relocation.IsPlain a :=
  fun a ha => Relocation.isPlain_of_mem_atoms a (H.sublist.subset ha)

/-- The end of some atoms meets the end of what they stand for. -/
theorem meets_of_eq {u v : List Piece} (h : H.atoms = u ++ v) :
    H.Meets (Text.byteSize (texts u)) (Text.byteSize (H.upTo u)) :=
  ⟨u, v, 0, h, rfl, rfl, Or.inl rfl⟩

/-- **A seam of the style text** has a place in the host. -/
theorem exists_meets {o : Nat} (h : HasSeam n.text o) : ∃ k, H.Meets o k := by
  obtain ⟨p, s, htext, rfl, hseam⟩ := h
  obtain ⟨u, v, q, huv, rfl, hq⟩ :=
    exists_split_of_isSeam H.isPlain (H.texts_atoms.trans htext) hseam
  rcases hq with rfl | ⟨rfl, hhole⟩
  · exact ⟨_, u, v, 0, huv, by simp, rfl, Or.inl rfl⟩
  · exact ⟨_, u, v, 1, huv, by simp, rfl, Or.inr ⟨rfl, hhole⟩⟩

/-- What stands in the source for a placeholder starts with a character of one byte. -/
theorem exists_expand_hole (i line : Nat) (v : List Piece) :
    ∃ c x, expand H.gaps (indent n.indentations.front line (.hole i (create i) :: v)) = c :: x ∧
      c.utf8Size = 1 ∧ c ≠ '\n' := by
  have hresolve : ∃ c x, (Piece.hole i (create i)).resolve id H.gaps = c :: x ∧
      c.utf8Size = 1 ∧ c ≠ '\n' := by
    rw [Piece.resolve]
    cases hg : H.gaps[i]? with
    | none => exact ⟨'/', _, rfl, rfl, by decide⟩
    | some g =>
        obtain ⟨e, rfl⟩ := H.laid.isHole g (List.mem_of_getElem? hg)
        exact ⟨'$', _, rfl, rfl, by decide⟩
  obtain ⟨c, x, hx, hc⟩ := hresolve
  rw [indent, if_neg (by simp), expand_cons, hx, List.cons_append]
  exact ⟨c, _, rfl, hc⟩

/-- What stands in the source for atoms stands behind what stands for those in front of them. -/
theorem upTo_append {u v : List Piece} (hu : ∀ a ∈ u, IsAtom a) :
    H.upTo (u ++ v) =
      H.upTo u ++ expand H.gaps (indent n.indentations.front (1 + (texts u).breaks) v) := by
  simp [upTo, indent_append hu]

/-- **Places in the host are in the order of the places that they meet.** -/
theorem Meets.le {o h o' h' : Nat} (hm : H.Meets o h) (hm' : H.Meets o' h') (hle : o ≤ o') :
    h ≤ h' := by
  obtain ⟨u, v, d, huv, rfl, rfl, hd⟩ := hm
  obtain ⟨u', v', d', huv', rfl, rfl, hd'⟩ := hm'
  have hatom : ∀ a ∈ H.atoms, IsAtom a := H.isAtom
  rcases List.append_eq_append_iff.1 (huv.symm.trans huv') with ⟨w, rfl, rfl⟩ | ⟨w, rfl, rfl⟩
  · have hsize := congrArg Text.byteSize (H.upTo_append (v := w)
      fun a ha => hatom a (huv ▸ List.mem_append_left _ ha))
    rw [Text.byteSize_append] at hsize
    cases w with
    | nil =>
        simp only [List.append_nil] at *
        omega
    | cons a w =>
        rcases hd with rfl | ⟨rfl, i, x, hx⟩
        · omega
        · obtain ⟨rfl, -⟩ := List.cons.inj hx
          obtain ⟨c, y, hy, hc, -⟩ := H.exists_expand_hole i (1 + (texts u).breaks) w
          rw [hy, Text.byteSize_cons, hc] at hsize
          omega
  · rw [texts_append, Text.byteSize_append] at hle
    cases w with
    | nil =>
        simp only [List.append_nil, texts_nil, Text.byteSize_nil] at *
        omega
    | cons a w =>
        -- there is an atom between the two places, and a placeholder has more than one character
        have ha := hatom a (by rw [huv]; simp)
        have hpos := Text.byteSize_pos ha.text_ne_nil
        rw [texts_cons, Text.byteSize_append] at hle
        rcases hd' with rfl | ⟨rfl, i, x, hx⟩
        · omega
        · obtain ⟨rfl, -⟩ := List.cons.inj hx
          have hone : Char.utf8Size '/' = 1 ∧ Char.utf8Size '*' = 1 := ⟨rfl, rfl⟩
          simp only [text_hole, create, List.cons_append, Text.byteSize_cons, hone] at hle
          omega

/-- The atoms of the normalized text stand for the content of the template up to its end. -/
theorem upTo_atoms : H.upTo H.atoms = H.front ++ weave t.quasis H.gaps :=
  List.append_cancel_right (H.source_eq.symm.trans H.woven_eq)

/-- Places in the host lie in the content of the template. -/
theorem Meets.mem_content {o h : Nat} (hm : H.Meets o h) :
    Text.byteSize H.front ≤ h ∧ h ≤ Text.byteSize (H.upTo H.atoms) := by
  obtain ⟨u, v, d, huv, ho, hh, hd⟩ := id hm
  have hsize : o ≤ Text.byteSize (texts H.atoms) := by
    rw [ho, huv, texts_append, Text.byteSize_append]
    rcases hd with rfl | ⟨rfl, i, v', rfl⟩
    · omega
    · have hpos : 0 < Text.byteSize (create i) := Text.byteSize_pos (by simp [create])
      rw [texts_cons, text_hole, Text.byteSize_append]
      omega
  refine ⟨?_, hm.le H (H.meets_of_eq (List.append_nil _).symm) hsize⟩
  rw [hh, upTo, List.append_assoc, Text.byteSize_append]
  omega

/-- Places that meet are boundaries of the two texts. -/
theorem Meets.exists_cuts {o h : Nat} (hm : H.Meets o h) :
    ∃ u v d p s, H.atoms = u ++ v ∧ o = Text.byteSize (texts u) + d ∧
      h = Text.byteSize (H.upTo u) + d ∧ (d = 0 ∨ ∃ a v', v = a :: v' ∧ d < Text.byteSize a.text) ∧
      source = p ++ s ∧ h = Text.byteSize p ∧
      (LineMap.ofText n.text).position o =
        ⟨(Position.advance {} (texts u)).line, (Position.advance {} (texts u)).column + d⟩ ∧
      Position.advance {} p =
        ⟨(Position.advance {} (H.upTo u)).line, (Position.advance {} (H.upTo u)).column + d⟩ := by
  obtain ⟨u, v, d, huv, rfl, rfl, hd⟩ := hm
  rcases hd with rfl | ⟨rfl, i, v', rfl⟩
  · refine ⟨u, v, 0, H.upTo u, _, huv, rfl, rfl, Or.inl rfl, H.source_eq_upTo huv, rfl, ?_, rfl⟩
    exact LineMap.position_of_eq (H.text_eq huv)
  · obtain ⟨c, x, hx, hc, hn⟩ := H.exists_expand_hole i (1 + (texts u).breaks) v'
    have hsource := H.source_eq_upTo huv
    rw [hx, List.cons_append, List.append_cons] at hsource
    have hone : Char.utf8Size '/' = 1 ∧ Char.utf8Size '*' = 1 := ⟨rfl, rfl⟩
    have htext : n.text = (texts u ++ ['/']) ++ (create i).tail ++ texts v' := by
      rw [H.text_eq huv]
      simp [create]
    refine ⟨u, _, 1, H.upTo u ++ [c], _, huv, rfl, rfl, Or.inr ⟨_, v', rfl, ?_⟩, hsource, ?_, ?_, ?_⟩
    · simp only [text_hole, create, List.cons_append, Text.byteSize_cons, hone]
      omega
    · simp [hc]
    · rw [List.append_assoc] at htext
      have hpos := LineMap.position_of_eq htext
      rw [Position.advance_append] at hpos
      simpa [Position.next, hone] using hpos
    · simp [Position.next, hn, hc]

end Hosting

/-! ### Nodes in the host -/

namespace Relocation

variable {r : Relocation}

/-- A node is moved with its range. -/
theorem source?_node (n : Node) : (r.node n).source? = n.source?.map r.range := by
  cases n with
  | rule h ns =>
      simp only [node, ruleHead, Node.source?]
      split <;> simp_all
  | atRule h ns | atStatement h =>
      simp only [node, atRuleHead, Node.source?]
      split <;> simp_all
  | declaration d =>
      simp only [node, declaration, Node.source?]
      split <;> simp_all
  | comment c =>
      simp only [node, comment, Node.source?]
      split <;> simp_all

/-- The nodes in a block are moved one by one. -/
theorem children_node (n : Node) : (r.node n).children = r.nodes n.children := by
  cases n <;> rfl

/-- **Nodes that nest do so in the host**, if a relocation moves the ends of their ranges to places
in the same order. -/
theorem nest_nodes {P Q : Range → Prop} {C : Nat → Nat → Prop}
    (hle : ∀ {o h o' h'}, C o h → C o' h' → o ≤ o' → h ≤ h')
    (hP : ∀ a, P a →
      Q (r.range a) ∧ C a.span.start (r.range a).span.start ∧ C a.span.stop (r.range a).span.stop)
    {lo hi lo' hi' : Nat} {ns : List Node} (h : Nest P lo hi ns) (hlo : C lo lo')
    (hhi : C hi hi') : Nest Q lo' hi' (r.nodes ns) := by
  induction h generalizing lo' hi' with
  | nil h => exact .nil (hle hlo hhi h)
  | @cons _ _ n ns a hsource ha hstart _ _ hin hrest =>
      obtain ⟨hQ, hC, hC'⟩ := hP a ha
      rw [nodes]
      refine .cons (by rw [source?_node, hsource, Option.map_some]) hQ (hle hlo hC hstart) ?_
        (hrest hC' hhi)
      rw [children_node]
      exact hin hC hC'

section

variable {source text : Text} {t : Tagged} {n : Normalized} {config : BlockConfig} {base : Nat}
  (hsize : Text.byteSize source < Word.signedLimit) (H : Hosting chars source t n)
  (hnormal : n = .ofText text base) (hbytes : config.frontBytes = n.dropped.bytes)
  (hlines : config.frontLines = n.dropped.lines)
  (hindent : config.indentations = n.indentations) (hr : ofTemplate? t n.text config = some r)

include hsize hnormal hbytes hlines hindent hr

/-- **The place in the host of a place that meets it** is that one, with its position. -/
theorem place_eq_of_meets {o h : Nat} (hm : H.Meets o h) :
    r.place o ((LineMap.ofText n.text).position o) = (h, (LineMap.ofText source).position h) ∧
      Text.IsBoundary source h := by
  obtain ⟨u, v, d, p, s, huv, rfl, hh, hd, hsource, hp, hlocal, hhost⟩ := hm.exists_cuts
  have htracks := tracks_within_atom H hr hbytes hlines hindent
    (by rw [hnormal]; exact fun k hk => absurd (Normalized.isIndent_of_mem_front hk) (by decide))
    (by rw [hnormal]; exact Normalized.cumulative_succ _ _)
    (by rw [hnormal, Normalized.cumulative_eq]; rfl) huv hd
  rw [← hlocal, ← hhost, ← hh, hp] at htracks
  have hlen := congrArg Text.byteSize H.woven_eq
  rw [← H.upTo_atoms, Text.byteSize_append, Text.byteSize_cons] at hlen
  have hend := (hm.mem_content H).2
  have hone : Char.utf8Size '\x60' = 1 := rfl
  obtain ⟨hline, hcolumn, hcolumn'⟩ := LineMap.advance_le p
  obtain ⟨hplace, -, -⟩ := htracks.place_eq (by omega) (by omega) hcolumn (by omega)
  rw [hplace, hp, LineMap.position_of_eq hsource]
  exact ⟨rfl, Text.isBoundary_iff.2 ⟨p, s, hsource, rfl⟩⟩

/-- The range in the host of a range between seams is located. -/
theorem isLocated_range {a : Range} (ha : FromSeamToSeam n.text a) :
    (r.range a).IsLocated source ∧ H.Meets a.span.start (r.range a).span.start ∧
      H.Meets a.span.stop (r.range a).span.stop := by
  obtain ⟨b, hb⟩ := H.exists_meets ha.start
  obtain ⟨e, he⟩ := H.exists_meets ha.stop
  obtain ⟨hplaceb, hboundb⟩ := place_eq_of_meets hsize H hnormal hbytes hlines hindent hr hb
  obtain ⟨hplacee, hbounde⟩ := place_eq_of_meets hsize H hnormal hbytes hlines hindent hr he
  have hrange : r.range a = (LineMap.ofText source).range ⟨b, e⟩ := by
    rw [range, ha.eq]
    simp only [LineMap.range, hplaceb, hplacee]
  rw [hrange]
  exact ⟨⟨hboundb, hbounde, hb.le H he ha.le, rfl⟩, hb, he⟩

/-- **A style sheet stands in the content of its template**, and its nodes nest within it. -/
theorem nest_root {g : Grammar} {sheet : Root} (hparse : Sheet.parse g n.text = .ok sheet) :
    ∃ a, (r.root sheet).source = some a ∧ a.IsLocated source ∧
      Text.byteSize H.front ≤ a.span.start ∧
      a.span.stop ≤ Text.byteSize (H.front ++ weave t.quasis H.gaps) ∧
      Nest (Range.IsLocated source) a.span.start a.span.stop (r.root sheet).nodes := by
  have hrange := fun {a} => isLocated_range hsize H hnormal hbytes hlines hindent hr (a := a)
  obtain ⟨hlocated, hstart, hstop⟩ := hrange (fromSeamToSeam_whole n.text)
  refine ⟨_, by rw [root, source_of_parse hparse, Option.map_some], hlocated,
    (hstart.mem_content H).1, H.upTo_atoms ▸ (hstop.mem_content H).2, ?_⟩
  exact nest_nodes (fun hC hC' => hC.le H hC') (fun a ha => hrange ha) (nest_of_parse hparse)
    hstart hstop

end

end Relocation

end StyleBlocks
