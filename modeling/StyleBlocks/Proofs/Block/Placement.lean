import Mathlib.Algebra.Ring.Int.Defs
import StyleBlocks.Proofs.Block.Hosting
import StyleBlocks.Proofs.Block.Tracking

/-!
# Places of style text in the host

A relocation finds for every place of the normalized text, placeholders aside, its place in the
host: the offset counts what was taken away and how much the holes differ from their placeholders,
and the line and the column, which are computed on their own, are those of that offset.

## Main results

* `Relocation.shiftsFrom_eq`: the shifts of a relocation are the holes among the atoms.
* `Relocation.place_eq_position`: the place in the host of a place of the normalized text.
-/

namespace StyleBlocks

open Placeholder Template

/-! ### Indices -/

namespace Placeholder

/-- The indices of the placeholders among pieces. -/
def indices : List Piece → List Nat
  | [] => []
  | .literal _ :: m => indices m
  | .hole i _ :: m => i :: indices m

/-- The indices of pieces are told piece by piece. -/
theorem indices_append (u v : List Piece) : indices (u ++ v) = indices u ++ indices v := by
  induction u with
  | nil => rfl
  | cons a u ih => cases a <;> simp [indices, ih]

/-- There are no indices where there are no holes. -/
theorem indices_of_isLiteral {m : List Piece} (hm : ∀ a ∈ m, a.isLiteral = true) :
    indices m = [] := by
  induction m with
  | nil => rfl
  | cons a m ih =>
      have ha := hm a List.mem_cons_self
      cases a with
      | literal t => exact ih fun b hb => hm b (List.mem_cons_of_mem _ hb)
      | hole i t => contradiction

/-- Indentation leaves the placeholders as they are. -/
theorem indices_indent (front : Nat → Text) (line : Nat) (m : List Piece) :
    indices (indent front line m) = indices m := by
  induction m generalizing line with
  | nil => rfl
  | cons a m ih =>
      have hchars : ∀ t, indices (chars t) = [] := fun t =>
        indices_of_isLiteral fun a ha => isLiteral_of_mem_chars ha
      rw [indent]
      split
      · next h => simp [h, indices, indices_append, hchars, ih]
      · cases a <;> simp [indices, ih]

/-- What is found has the indices of the holes. -/
theorem map_index_foundFrom (offset : Nat) (m : List Piece) :
    (foundFrom offset m).map Found.index = indices m := by
  induction m generalizing offset with
  | nil => rfl
  | cons a m ih => cases a <;> simp [foundFrom, indices, ih]

end Placeholder

/-- The placeholders of a template are numbered one after the other. -/
theorem Extraction.indices_atoms {f : Text → List Piece} {index : Nat} {qs : List Quasi}
    (hf : ∀ q ∈ qs, ∀ a ∈ f q.raw, a.isLiteral = true) :
    indices (atoms f index qs) = List.range' index (qs.length - 1) := by
  fun_induction joinFrom index qs with
  | case1 => rfl
  | case2 index q => exact indices_of_isLiteral (hf q List.mem_cons_self)
  | case3 index q r qs ih =>
      rw [atoms, indices_append, indices_of_isLiteral (hf q List.mem_cons_self), List.nil_append,
        indices, ih fun p hp => hf p (List.mem_cons_of_mem _ hp)]
      simp [List.range'_succ]

namespace Relocation

/-! ### Shifts -/

/-- **The shifts of a relocation** are the holes of its template, each with its placeholder. -/
theorem shiftsFrom_eq {source front back : Text} {qs : List Quasi} {gs es : List Text} {index : Nat}
    {pre found : List Found} (h : Laid (LineMap.ofText source) front qs gs)
    (hsource : source = front ++ weave qs gs ++ back) (hindex : es.length = index)
    (hpre : ∀ x ∈ pre, x.index < index)
    (hfound : found.map Found.index = List.range' index (qs.length - 1)) :
    shiftsFrom index (pre ++ found) qs =
        List.zipWith shift found
          (holes (es ++ gs) (Position.advance {} front) (Extraction.atoms chars index qs)) ∧
      (holes (es ++ gs) (Position.advance {} front)
        (Extraction.atoms chars index qs)).map Prod.fst = gs := by
  fun_induction Laid (LineMap.ofText source) front qs gs generalizing index pre found es with
  | case1 front q =>
      have hholes : holes es (Position.advance {} front) (chars q.raw) = [] := by
        simpa [holes] using holes_chars_append es (Position.advance {} front) q.raw []
      simp [shiftsFrom, Extraction.atoms, hholes]
  | case2 front q r qs g gs ih =>
      obtain ⟨hq, -, hrest⟩ := h
      cases found with
      | nil => simp [List.range'_succ] at hfound
      | cons x found =>
          obtain ⟨hx, hfound⟩ : x.index = index ∧
              found.map Found.index = List.range' (index + 1) ((r :: qs).length - 1) := by
            simpa [List.range'_succ] using hfound
          have hw : source = front ++ q.raw ++ g ++ (weave (r :: qs) gs ++ back) := by
            rw [hsource]
            simp [weave]
          have hnext : (es ++ [g]).length = index + 1 := by simp [hindex]
          have hseen : ∀ y ∈ pre ++ [x], y.index < index + 1 := by
            intro y hy
            rcases List.mem_append.1 hy with hy | hy
            · exact Nat.lt_succ_of_lt (hpre y hy)
            · rw [List.mem_singleton.1 hy, hx]
              exact Nat.lt_succ_self _
          obtain ⟨hshifts, hgaps⟩ :=
            ih hrest (by rw [hsource]; simp [weave]) hnext hseen hfound
          have hfind : (pre ++ x :: found).find? (fun f => f.index = index) = some x := by
            have hnone : pre.find? (fun f => f.index = index) = none := by
              rw [List.find?_eq_none]
              intro y hy
              simpa using Nat.ne_of_lt (hpre y hy)
            rw [List.find?_append, hnone, Option.none_or,
              List.find?_cons_of_pos (by simpa using hx)]
          have hg : (es ++ g :: gs)[index]? = some g := by simp [← hindex]
          have hstop : q.stop = Position.advance {} (front ++ q.raw) := by
            rw [hq.stop]
            exact LineMap.position_of_eq (hw.trans (List.append_assoc _ _ _))
          have hstart : r.start = Position.advance {} (front ++ q.raw ++ g) := by
            rw [hrest.head.start]
            exact LineMap.position_of_eq hw
          have hsize : r.span.start - q.span.stop = Text.byteSize g := by
            rw [hrest.head.span, hq.span, Text.byteSize_append (front ++ q.raw) g]
            exact Nat.add_sub_cancel_left _ _
          rw [List.append_assoc, List.singleton_append, List.append_assoc,
            List.singleton_append] at hshifts
          rw [List.append_assoc, List.singleton_append] at hgaps
          rw [shiftsFrom, hfind, Extraction.atoms, holes_chars_append, holes, Piece.resolve, hg,
            Option.getD_some, ← Position.advance_append, ← Position.advance_append,
            List.zipWith_cons_cons, List.map_cons, hgaps]
          refine ⟨?_, rfl⟩
          simp only [hshifts, hstop, hstart, hsize]
          rw [shift, ← Position.advance_append]
  | case3 => exact h.elim

/-! ### Offsets among atoms -/

/-- An offset in the text of atoms that lies in no placeholder lies behind some of them, or within
one character. -/
theorem exists_split {m : List Piece} (hm : ∀ a ∈ m, IsPlain a) {k o : Nat}
    (ho : o ≤ Text.byteSize (texts m))
    (hout : ∀ f ∈ foundFrom k m, ¬ (f.span.start < k + o ∧ k + o < f.span.stop)) :
    ∃ u v d, m = u ++ v ∧ o = Text.byteSize (texts u) + d ∧
      (d = 0 ∨ ∃ c v', v = .literal [c] :: v' ∧ d < c.utf8Size) := by
  induction m generalizing k o with
  | nil => exact ⟨[], [], 0, rfl, by simpa using ho, Or.inl rfl⟩
  | cons a m ih =>
      have ih := fun {k o} => @ih (fun b hb => hm b (List.mem_cons_of_mem _ hb)) k o
      by_cases hzero : o = 0
      · exact ⟨[], a :: m, 0, rfl, hzero, Or.inl rfl⟩
      · rcases hm a List.mem_cons_self with ⟨c, rfl⟩ | ⟨i, rfl⟩
        · by_cases hlt : o < c.utf8Size
          · exact ⟨[], _, o, rfl, by simp, Or.inr ⟨c, m, rfl, hlt⟩⟩
          · have hsize : Text.byteSize (Piece.literal [c]).text = c.utf8Size := by simp
            have hsum : k + Text.byteSize [c] + (o - c.utf8Size) = k + o := by
              simp only [Text.byteSize_cons, Text.byteSize_nil]
              omega
            obtain ⟨u, v, d, rfl, hu, hd⟩ := ih (k := k + Text.byteSize [c]) (o := o - c.utf8Size)
              (by rw [texts_cons, Text.byteSize_append, hsize] at ho; omega)
              (fun f hf => by rw [hsum]; exact hout f hf)
            refine ⟨.literal [c] :: u, v, d, rfl, ?_, hd⟩
            clear hd
            rw [texts_cons, Text.byteSize_append, hsize]
            omega
        · have hin := hout ⟨i, ⟨k, k + Text.byteSize (create i)⟩⟩ (by simp [foundFrom])
          have hsum : k + Text.byteSize (create i) + (o - Text.byteSize (create i)) = k + o := by
            simp only at hin
            omega
          obtain ⟨u, v, d, rfl, hu, hd⟩ := ih (k := k + Text.byteSize (create i))
            (o := o - Text.byteSize (create i))
            (by rw [texts_cons, Text.byteSize_append, text_hole] at ho; omega)
            (fun f hf => by rw [hsum]; exact hout f (List.mem_cons_of_mem _ hf))
          refine ⟨.hole i (create i) :: u, v, d, rfl, ?_, hd⟩
          clear hd
          rw [texts_cons, Text.byteSize_append, text_hole]
          omega

/-- Placeholders stand where their atoms do. -/
theorem span_of_mem_foundFrom {m : List Piece} (hm : ∀ a ∈ m, IsPlain a) {k : Nat} {f : Found}
    (hf : f ∈ foundFrom k m) :
    k ≤ f.span.start ∧ f.span.start < f.span.stop ∧ f.span.stop ≤ k + Text.byteSize (texts m) := by
  induction m generalizing k with
  | nil => contradiction
  | cons a m ih =>
      have ih := fun {k} => @ih (fun b hb => hm b (List.mem_cons_of_mem _ hb)) k
      rcases hm a List.mem_cons_self with ⟨c, rfl⟩ | ⟨i, rfl⟩
      · have := ih hf
        simp only [texts_cons, text_literal, Text.byteSize_append] at this ⊢
        omega
      · rw [texts_cons, text_hole, Text.byteSize_append]
        rcases List.mem_cons.1 hf with rfl | hf
        · have : 0 < Text.byteSize (create i) := Text.byteSize_pos (by simp [create])
          simp only
          omega
        · have := ih hf
          omega

/-! ### The tally at an offset -/

/-- What is found among pieces behind others is found as far on as these reach. -/
theorem foundFrom_append (k : Nat) (u v : List Piece) :
    foundFrom k (u ++ v) = foundFrom k u ++ foundFrom (k + Text.byteSize (texts u)) v := by
  induction u generalizing k with
  | nil => rfl
  | cons a u ih => cases a <;> simp [foundFrom, ih, Nat.add_assoc]

/-- The holes of pieces behind others are filled in as far on as these reach. -/
theorem holes_append (es : List Text) (H : Position) (u v : List Piece) :
    holes es H (u ++ v) = holes es H u ++ holes es (H.advance (expand es u)) v := by
  induction u generalizing H with
  | nil => rfl
  | cons a u ih => cases a <;> simp [holes, ih]

/-- There is an expression for every hole. -/
theorem length_holes (es : List Text) (H : Position) (m : List Piece) :
    (holes es H m).length = (indices m).length := by
  induction m generalizing H with
  | nil => rfl
  | cons a m ih => cases a <;> simp [holes, indices, ih]

/-- Every shift ends with a placeholder that was found. -/
theorem exists_of_mem_zipWith {s : Shift} {found : List Found} {hs : List (Text × Position)}
    (h : s ∈ List.zipWith shift found hs) : ∃ f ∈ found, s.localEnd = f.span.stop := by
  induction found generalizing hs with
  | nil => simp at h
  | cons f found ih =>
      cases hs with
      | nil => simp at h
      | cons e hs =>
          rcases List.mem_cons.1 h with rfl | h
          · exact ⟨f, List.mem_cons_self, rfl⟩
          · obtain ⟨g, hg, hs⟩ := ih h
            exact ⟨g, List.mem_cons_of_mem _ hg, hs⟩

/-- The holes in front of an offset are those among the atoms in front of it. -/
theorem filter_shifts {front : Nat → Text} {es : List Text} {H : Position} {u v : List Piece}
    {d : Nat} (hm : ∀ a ∈ u ++ v, IsPlain a) (hatom : ∀ a ∈ u, IsAtom a)
    (hd : d = 0 ∨ ∃ a v', v = a :: v' ∧ d < Text.byteSize a.text) :
    (List.zipWith shift (foundFrom 0 (u ++ v)) (holes es H (indent front 1 (u ++ v)))).filter
        (fun s => s.localEnd ≤ Text.byteSize (texts u) + d) =
      List.zipWith shift (foundFrom 0 u) (holes es H (indent front 1 u)) := by
  have hu : ∀ a ∈ u, IsPlain a := fun a ha => hm a (List.mem_append_left _ ha)
  have hv : ∀ a ∈ v, IsPlain a := fun a ha => hm a (List.mem_append_right _ ha)
  have hlen : (foundFrom 0 u).length = (holes es H (indent front 1 u)).length := by
    rw [length_holes, indices_indent, ← map_index_foundFrom 0, List.length_map]
  rw [foundFrom_append, indent_append hatom, holes_append, List.zipWith_append hlen,
    List.filter_append, List.filter_eq_self.2, List.filter_eq_nil_iff.2, List.append_nil]
  · intro s hs
    obtain ⟨f, hf, hstop⟩ := exists_of_mem_zipWith hs
    have hlt : Text.byteSize (texts u) + d < f.span.stop := by
      rcases hd with rfl | ⟨a, v', rfl, hd⟩
      · have := span_of_mem_foundFrom hv hf
        omega
      · rcases hv a List.mem_cons_self with ⟨c, rfl⟩ | ⟨i, rfl⟩
        · have := span_of_mem_foundFrom (fun a ha => hv a (List.mem_cons_of_mem _ ha)) hf
          simp only [text_literal] at hd this
          omega
        · rcases List.mem_cons.1 hf with rfl | hf
          · simp only [text_hole] at hd
            simp only
            omega
          · have := span_of_mem_foundFrom (fun a ha => hv a (List.mem_cons_of_mem _ ha)) hf
            simp only [text_hole] at hd
            omega
    rw [decide_eq_true_eq, hstop]
    omega
  · intro s hs
    obtain ⟨f, hf, hstop⟩ := exists_of_mem_zipWith hs
    have := span_of_mem_foundFrom hu hf
    rw [decide_eq_true_eq, hstop]
    omega

/-- How much longer the holes in front of an offset are than their placeholders. -/
def growthBefore (found : List Found) (es : List Text) (o : Nat) : Int :=
  (((found.zip es).filter fun x => x.1.span.stop ≤ o).map fun x =>
    (Text.byteSize x.2 : Int) - x.1.span.size).sum

/-- A tally adds the growth of all holes to its bytes. -/
theorem bytes_foldl_add (T : Tally) (ss : List Shift) :
    (ss.foldl Tally.add T).bytes = T.bytes + (ss.map Shift.growth).sum := by
  induction ss generalizing T with
  | nil => simp
  | cons s ss ih =>
      rw [List.foldl_cons, ih, List.map_cons, List.sum_cons]
      simp only [Tally.add]
      omega

/-- The holes that end in front of an offset add up to the growth in front of it. -/
theorem sum_growth_eq (found : List Found) (hs : List (Text × Position)) (o : Nat) :
    (((List.zipWith shift found hs).filter fun s => s.localEnd ≤ o).map Shift.growth).sum =
      growthBefore found (hs.map Prod.fst) o := by
  induction found generalizing hs with
  | nil => rfl
  | cons f found ih =>
      cases hs with
      | nil => rfl
      | cons e hs =>
          have ih := ih hs
          rw [growthBefore] at ih ⊢
          have hend : (shift f e).localEnd = f.span.stop := rfl
          have hgrowth : (shift f e).growth = (Text.byteSize e.1 : Int) - f.span.size := rfl
          rw [List.zipWith_cons_cons, List.map_cons, List.zip_cons_cons]
          by_cases hle : f.span.stop ≤ o
          · rw [List.filter_cons_of_pos (by simpa [hend] using hle),
              List.filter_cons_of_pos (by simpa using hle), List.map_cons, List.map_cons,
              List.sum_cons, List.sum_cons, ih, hgrowth]
          · rw [List.filter_cons_of_neg (by simpa [hend] using hle),
              List.filter_cons_of_neg (by simpa using hle), ih]

/-! ### The first place -/

/-- The start of the normalized text and its place in the host hang together: in the host the
dropped line and the indentation of the first line stand in front of it. -/
theorem tracks_start {r : Relocation} {front d : Text} (hoffset : r.offset = Text.byteSize front)
    (hposition : r.position = Position.advance {} front)
    (hbytes : r.config.frontBytes = Text.byteSize d)
    (hlines : r.config.frontLines = d.breaks) (hd : Text.AtLineStart d)
    (hn : '\n' ∉ r.config.indentations.front 1)
    (hcum : r.config.indentations.cumulative 1 = Text.byteSize (r.config.indentations.front 1)) :
    r.Tracks 0 {} (Text.byteSize (front ++ (d ++ r.config.indentations.front 1)))
      (Position.advance {} (front ++ (d ++ r.config.indentations.front 1)))
      { bytes := 0, lines := 0, line := r.position.line
        columns := (r.position.column : Int) - 1 } := by
  have hwidth : r.config.indentations.width 1 = Text.byteSize (r.config.indentations.front 1) := rfl
  rw [Position.advance_append, Position.advance_append, Position.advance_of_notMem hn, ← hposition]
  refine ⟨?_, ?_, ?_, ?_⟩
  · simp only [hcum, hoffset, hbytes, Text.byteSize_append]
    push_cast
    omega
  · simp only [Position.line_advance, hlines]
    push_cast
    omega
  · rcases hd with rfl | hlast
    · simp only [Position.advance_nil, Tally.columnsOn, hwidth, if_true]
      push_cast
      omega
    · have hcolumn := Position.column_advance_of_getLast? hlast r.position
      have hpos : 0 < d.breaks := List.count_pos_iff.2 (List.mem_of_getLast? hlast)
      have hne : (r.position.advance d).line ≠ r.position.line := by
        rw [Position.line_advance]
        omega
      simp only [Tally.columnsOn, hwidth, hcolumn, if_neg hne]
      push_cast
      omega
  · simp only [Position.line_advance]
    omega

/-! ### Places in the host -/

/-- The characters of a text are atoms. -/
theorem isAtom_of_mem_chars {t : Text} {a : Piece} (ha : a ∈ chars t) : IsAtom a := by
  obtain ⟨c, -, rfl⟩ := List.mem_map.1 ha
  exact .char c

/-- The characters of literal parts are no escape pairs. -/
theorem isPlain_of_mem_atoms {index : Nat} {qs : List Quasi} :
    ∀ a ∈ Extraction.atoms chars index qs, IsPlain a := by
  have hchars : ∀ {t : Text}, ∀ a ∈ chars t, IsPlain a := by
    intro t a ha
    obtain ⟨c, -, rfl⟩ := List.mem_map.1 ha
    exact Or.inl ⟨c, rfl⟩
  fun_induction Extraction.atoms chars index qs with
  | case1 => simp
  | case2 index q => exact hchars
  | case3 index q r qs ih =>
      intro a ha
      rcases List.mem_append.1 ha with ha | ha
      · exact hchars a ha
      · rcases List.mem_cons.1 ha with rfl | ha
        · exact Or.inr ⟨index, rfl⟩
        · exact ih a ha

variable {r : Relocation} {source : Text} {t : Tagged} {n : Normalized} {config : BlockConfig}

/-- The first place that a relocation starts from is that of the template's content. -/
theorem start_of_ofTemplate? {f : Text → List Piece} (H : Hosting f source t n)
    (hr : ofTemplate? t n.text config = some r) :
    r.config = config ∧ r.offset = Text.byteSize H.front ∧
      r.position = Position.advance {} H.front ∧
      r.shifts = shiftsFrom 0 (findAll n.text) t.quasis := by
  obtain ⟨first, hfirst, hr⟩ := Option.bind_eq_some_iff.1 hr
  obtain ⟨qs, hqs⟩ := List.head?_eq_some_iff.1 hfirst
  have hlaid := H.laid
  rw [hqs] at hlaid
  have hstart : (LineMap.ofText source).position (Text.byteSize H.front) =
      Position.advance {} H.front :=
    LineMap.position_of_eq (H.woven_eq.trans (List.append_assoc _ _ _))
  cases hr
  exact ⟨rfl, by rw [hlaid.head.span], by rw [hlaid.head.start, hstart], rfl⟩

/-- The shifts of a relocation are the holes among the atoms. -/
theorem shifts_of_ofTemplate? (H : Hosting chars source t n)
    (hr : ofTemplate? t n.text config = some r) :
    r.shifts = List.zipWith shift (foundFrom 0 H.atoms)
        (holes H.gaps (Position.advance {} (H.front ++ (H.dropped ++ n.indentations.front 1)))
          (indent n.indentations.front 1 H.atoms)) ∧
      (holes H.gaps (Position.advance {} (H.front ++ (H.dropped ++ n.indentations.front 1)))
          (indent n.indentations.front 1 H.atoms)).map Prod.fst = H.gaps := by
  obtain ⟨-, -, -, hshifts⟩ := start_of_ofTemplate? H hr
  have hindices : (foundFrom 0 H.atoms).map Found.index = List.range' 0 (t.quasis.length - 1) := by
    rw [map_index_foundFrom, ← indices_indent n.indentations.front 1,
      ← Extraction.indices_atoms fun q (_ : q ∈ t.quasis) a (ha : a ∈ chars q.raw) =>
        isLiteral_of_mem_chars ha,
      H.parts_eq, indices_append, indices_of_isLiteral fun a ha => isLiteral_of_mem_chars ha,
      List.nil_append]
  have hpre : ∀ x ∈ ([] : List Found), x.index < 0 := by simp
  have heq := shiftsFrom_eq H.laid H.woven_eq List.length_nil hpre hindices
  rw [List.nil_append, List.nil_append, H.parts_eq, holes_chars_append,
    ← Position.advance_append] at heq
  rwa [hshifts, ← H.texts_atoms, findAll_texts H.isAtom H.unmarked]

/-- A place behind atoms of the normalized text, or within the next of them, hangs together with
the place as far behind those atoms in the host. -/
theorem tracks_within_atom (H : Hosting chars source t n) (hr : ofTemplate? t n.text config = some r)
    (hbytes : config.frontBytes = n.dropped.bytes) (hlines : config.frontLines = n.dropped.lines)
    (hindent : config.indentations = n.indentations) (hn : ∀ k, '\n' ∉ n.indentations.front k)
    (hcum : ∀ k, n.indentations.cumulative (k + 1) =
      n.indentations.cumulative k + Text.byteSize (n.indentations.front (k + 1)))
    (hzero : n.indentations.cumulative 0 = 0) {u v : List Piece} {d : Nat}
    (hsplit : H.atoms = u ++ v)
    (hd : d = 0 ∨ ∃ a v', v = a :: v' ∧ d < Text.byteSize a.text) :
    r.Tracks (Text.byteSize (texts u) + d)
      ⟨(Position.advance {} (texts u)).line, (Position.advance {} (texts u)).column + d⟩
      (Text.byteSize (H.upTo u) + d)
      ⟨(Position.advance {} (H.upTo u)).line, (Position.advance {} (H.upTo u)).column + d⟩
      (r.tally (Text.byteSize (texts u) + d)) := by
  obtain ⟨hconfig, hoffset, hposition, -⟩ := start_of_ofTemplate? H hr
  obtain ⟨hshifts, -⟩ := shifts_of_ofTemplate? H hr
  have hplain : ∀ a ∈ u ++ v, IsPlain a := fun a ha =>
    isPlain_of_mem_atoms a (H.sublist.subset (hsplit ▸ ha))
  have hatom : ∀ a ∈ u, IsAtom a := fun a ha => H.isAtom a (by simp [hsplit, ha])
  have hfront : r.config.indentations = n.indentations := by rw [hconfig, hindent]
  have hstart := tracks_start (r := r) (d := H.dropped) hoffset hposition
    (by rw [hconfig, hbytes, H.byteSize_dropped]) (by rw [hconfig, hlines, H.breaks_dropped])
    H.atLineStart_dropped (by rw [hfront]; exact hn 1) (by rw [hfront, hcum, hzero, Nat.zero_add])
  have hrun := hstart.run H.gaps (fun a ha => hplain a (List.mem_append_left _ ha))
    (by rw [hfront]; exact hn) (by rw [hfront]; exact hcum)
  have htally : r.tally (Text.byteSize (texts u) + d) =
      (List.zipWith shift (foundFrom 0 u)
        (holes H.gaps (Position.advance {} (H.front ++ (H.dropped ++ n.indentations.front 1)))
          (indent n.indentations.front 1 u))).foldl Tally.add
        { bytes := 0, lines := 0, line := r.position.line
          columns := (r.position.column : Int) - 1 } := by
    rw [tally, hshifts, hsplit, filter_shifts hplain hatom hd]
  rw [hfront, Nat.zero_add, ← Position.advance_append, ← Text.byteSize_append] at hrun
  rw [htally]
  exact hrun.within d

/-- A place that lies in no placeholder hangs together with its place in the host. -/
theorem tracks_of_hosting (H : Hosting chars source t n) (hr : ofTemplate? t n.text config = some r)
    (hbytes : config.frontBytes = n.dropped.bytes) (hlines : config.frontLines = n.dropped.lines)
    (hindent : config.indentations = n.indentations) (hn : ∀ k, '\n' ∉ n.indentations.front k)
    (hcum : ∀ k, n.indentations.cumulative (k + 1) =
      n.indentations.cumulative k + Text.byteSize (n.indentations.front (k + 1)))
    (hzero : n.indentations.cumulative 0 = 0) {u v : List Piece} {d : Nat}
    (hsplit : H.atoms = u ++ v)
    (hd : d = 0 ∨ ∃ c v', v = .literal [c] :: v' ∧ d < c.utf8Size) :
    r.Tracks (Text.byteSize (texts u) + d)
      ⟨(Position.advance {} (texts u)).line, (Position.advance {} (texts u)).column + d⟩
      (Text.byteSize (H.upTo u) + d)
      ⟨(Position.advance {} (H.upTo u)).line, (Position.advance {} (H.upTo u)).column + d⟩
      (r.tally (Text.byteSize (texts u) + d)) :=
  tracks_within_atom H hr hbytes hlines hindent hn hcum hzero hsplit
    (hd.imp_right fun ⟨_, v', hv, hlt⟩ => ⟨_, v', hv, by simpa using hlt⟩)

/-- A character of the normalized text stands in the host as well. -/
theorem exists_expand_indent (es : List Text) (front : Nat → Text) (line : Nat) (c : Char)
    (m : List Piece) : ∃ s, expand es (indent front line (.literal [c] :: m)) = c :: s := by
  rw [indent]
  split <;> exact ⟨_, rfl⟩

/-- Within a character of the normalized text the host stands within the same character. -/
theorem host_within {f : Text → List Piece} (H : Hosting f source t n) {u v : List Piece}
    {d : Nat} (hsplit : H.atoms = u ++ v)
    (hd : d = 0 ∨ ∃ c v', v = .literal [c] :: v' ∧ d < c.utf8Size) :
    (d = 0 ∨ ∃ c s, expand H.gaps (indent n.indentations.front (1 + (texts u).breaks) v) ++
      '\x60' :: H.back = c :: s ∧ d < c.utf8Size) ∧
    Text.byteSize (H.upTo u) + d < Text.byteSize source := by
  have hcut := congrArg Text.byteSize (H.source_eq_upTo hsplit)
  rw [Text.byteSize_append] at hcut
  rcases hd with rfl | ⟨c, v', rfl, hlt⟩
  · have := Char.utf8Size_pos '\x60'
    simp only [Text.byteSize_append, Text.byteSize_cons] at hcut
    exact ⟨Or.inl rfl, by omega⟩
  · obtain ⟨s, hs⟩ := exists_expand_indent H.gaps n.indentations.front (1 + (texts u).breaks) c v'
    rw [hs, List.cons_append] at hcut ⊢
    rw [Text.byteSize_cons] at hcut
    exact ⟨Or.inr ⟨c, _, rfl, hlt⟩, by omega⟩

/-- **The place in the host of a place of the normalized text.** For a template of a source,
whatever indentation is taken away, and every offset that lies in no placeholder: the offset in the
host counts the content's start, the dropped line, what was taken from the lines up to that of the
offset, and for every hole in front of it how much longer it is than its placeholder; line and
column are those of that offset; and neither the offset nor the column is clamped. -/
theorem place_eq_position (hsize : Text.byteSize source < Word.signedLimit) {ts : List Tagged}
    (hts : findTemplates source = .ok ts) (ht : t ∈ ts) (hmark : ∀ q ∈ t.quasis, ¬ mark <:+: q.raw)
    {base : Nat} (hnormal : n = .ofText (Extraction.ofTemplate t source).text base)
    (hbytes : config.frontBytes = n.dropped.bytes) (hlines : config.frontLines = n.dropped.lines)
    (hindent : config.indentations = n.indentations) (hr : ofTemplate? t n.text config = some r)
    {content : Span} (hcontent : t.contentSpan? = some content) {o : Nat}
    (ho : o ≤ Text.byteSize n.text)
    (hout : ∀ f ∈ findAll n.text, ¬ (f.span.start < o ∧ o < f.span.stop)) :
    let p := (LineMap.ofText n.text).position o
    ∃ h : Nat,
      (h : Int) = o + content.start + n.dropped.bytes + n.indentations.cumulative p.line +
        growthBefore (findAll n.text) (Extraction.ofTemplate t source).expressions o ∧
      r.place o p = (h, (LineMap.ofText source).position h) ∧
      0 ≤ r.hostByte o p ∧ 1 ≤ r.hostColumn o p := by
  obtain ⟨H⟩ := nonempty_hosting (f := chars) (isIn_of_mem_findTemplates hts ht) hsize
    (fun q _ => texts_chars q.raw) (fun q _ a ha => isAtom_of_mem_chars ha)
    (fun q _ a ha => isLiteral_of_mem_chars ha) hmark base
  rw [← hnormal] at H
  obtain ⟨hconfig, hoffset, -, -⟩ := start_of_ofTemplate? H hr
  obtain ⟨hshifts, hgaps⟩ := shifts_of_ofTemplate? H hr
  have hfound : findAll n.text = foundFrom 0 H.atoms := by
    rw [← H.texts_atoms, findAll_texts H.isAtom H.unmarked]
  have hstart : content.start = r.offset := by
    rw [hoffset, Option.some.inj (hcontent.symm.trans (contentSpan?_of_laid H.laid))]
  have hend : o ≤ Text.byteSize (texts H.atoms) := by rwa [H.texts_atoms]
  obtain ⟨u, v, d, hsplit, rfl, hd⟩ := exists_split (m := H.atoms) (k := 0)
    (fun a ha => isPlain_of_mem_atoms a (H.sublist.subset ha)) hend
    (fun f hf => by rw [Nat.zero_add]; exact hout f (hfound ▸ hf))
  have htracks := tracks_of_hosting H hr hbytes hlines hindent
    (by rw [hnormal]; exact fun k hk => absurd (Normalized.isIndent_of_mem_front hk) (by decide))
    (by rw [hnormal]; exact Normalized.cumulative_succ _ _)
    (by rw [hnormal, Normalized.cumulative_eq]; rfl) hsplit hd
  have hd' : d = 0 ∨ ∃ c s', texts v = c :: s' ∧ d < c.utf8Size :=
    hd.imp_right fun ⟨c, v', hv, hlt⟩ => ⟨c, texts v', by rw [hv]; rfl, hlt⟩
  obtain ⟨hhost, hlt⟩ := host_within H hsplit hd
  obtain ⟨hline, hcolumn, hcolumn'⟩ := LineMap.advance_le (H.upTo u)
  obtain ⟨hplace, hbyte, hcol⟩ := htracks.place_eq (by omega) (by simp only; omega)
    (by simp only; omega) (by simp only; omega)
  rw [LineMap.position_add_of_eq (H.text_eq hsplit) hd']
  refine ⟨Text.byteSize (H.upTo u) + d, ?_, ?_, hbyte, hcol⟩
  · have hgrowth : (r.tally (Text.byteSize (texts u) + d)).bytes =
        growthBefore (findAll n.text) H.gaps (Text.byteSize (texts u) + d) := by
      rw [tally, bytes_foldl_add, hshifts, sum_growth_eq, hgaps, hfound, Int.zero_add]
    rw [H.expressions_eq, ← hgrowth, htracks.offset, hstart, hconfig, hbytes, hindent]
    omega
  · rw [hplace, LineMap.position_add_of_eq (H.source_eq_upTo hsplit) hhost]

/-- Behind a hole that goes over two lines, in a block with a dropped line and indentation. -/
theorem place_behind_hole :
    let source : Text := "css`\n  a: $\x7bf(\n1)\x7d b;\n  `".toList
    let t : Tagged :=
      { tag := .identifier "css".toList, span := ⟨0, 25⟩
        quasis :=
          [⟨⟨4, 10⟩, ⟨1, 5⟩, ⟨2, 6⟩, "\n  a: ".toList⟩,
            ⟨⟨18, 24⟩, ⟨3, 4⟩, ⟨4, 3⟩, " b;\n  ".toList⟩]
        holes := [⟨⟨12, 17⟩, ⟨2, 8⟩⟩], leadingComments := [] }
    let n := Normalized.ofText (Extraction.ofTemplate t source).text 2
    findTemplates source = .ok [t] ∧
      ∃ r, ofTemplate? t n.text
          { hostEdges := { front := n.dropped }, indentations := n.indentations } = some r ∧
        r.place 20 ((LineMap.ofText n.text).position 20) = (19, ⟨3, 5⟩) := by
  intro source t n
  have hts : findTemplates source = .ok [t] := by decide +kernel
  obtain ⟨r, hr⟩ : ∃ r, ofTemplate? t n.text
      { hostEdges := { front := n.dropped }, indentations := n.indentations } = some r := ⟨_, rfl⟩
  obtain ⟨h, hh, hplace, -, -⟩ := place_eq_position (by decide +kernel) hts List.mem_cons_self
    (by decide +kernel) rfl rfl rfl rfl hr
    (show t.contentSpan? = some ⟨4, 24⟩ from rfl) (o := 20) (by decide +kernel)
    (by decide +kernel)
  have hnineteen : h = 19 := by
    refine Int.natCast_inj.1 (hh.trans ?_)
    decide +kernel
  subst hnineteen
  refine ⟨hts, r, hr, hplace.trans ?_⟩
  decide +kernel

end Relocation

end StyleBlocks
