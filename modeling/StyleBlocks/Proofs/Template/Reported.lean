import StyleBlocks.Proofs.Template.Steps

/-!
# The templates that are found

Every template that is found lies in the source: its literal parts are laid one behind the other,
and a backtick follows the last of them. The proof follows the source from left to right. What has
been read of a template that is still open lies in what has been read, up to the delimiter of its
hole, and stays there whatever is read behind it.

## Main results

* `sound_readLexeme`: reading a lexeme keeps the invariant.
* `isIn_of_mem_findTemplates`: every template that is found lies in the source.
-/

namespace StyleBlocks.Template

/-- A template **lies in** a source: its parts are laid behind something, and a backtick follows
them. -/
def Tagged.IsIn (source : Text) (t : Tagged) : Prop :=
  ∃ front gaps back, Laid (LineMap.ofText source) front t.quasis gaps ∧
    source = front ++ weave t.quasis gaps ++ '\x60' :: back

/-- A template with an open hole lies in what has been read. -/
def Unclosed.IsOpenIn (lines : LineMap) (read : Text) (u : Unclosed) : Prop :=
  ∃ front gaps, Laid lines front u.quasis gaps ∧
    front ++ weave u.quasis gaps ++ ['$', '{'] <+: read

/-- A template in which a literal part is due at the end of what has been read. -/
def Unclosed.IsDueAt (lines : LineMap) (read : Text) (u : Unclosed) : Prop :=
  ∀ q : Quasi, q.StandsBehind lines read →
    ∃ front gaps, Laid lines front (u.quasis ++ [q]) gaps ∧
      front ++ weave (u.quasis ++ [q]) gaps = read ++ q.raw

/-- At its opening backtick the first literal part of a template is due. -/
theorem Unclosed.isDueAt_opening {lines : LineMap} {read : Text} {u : Unclosed}
    (h : u.quasis = []) :
    u.IsDueAt lines read := by
  intro q hq
  rw [h]
  exact ⟨read, [], hq, by simp [weave]⟩

/-- Where its hole is closed the next literal part of a template is due. -/
theorem Unclosed.IsOpenIn.isDueAt {lines : LineMap} {read : Text} {u : Unclosed}
    (h : u.IsOpenIn lines read) : u.IsDueAt lines (read ++ ['}']) := by
  obtain ⟨front, gaps, hlaid, e, he⟩ := h
  intro q hq
  have hread : read ++ ['}'] = front ++ weave u.quasis gaps ++ '$' :: '{' :: (e ++ ['}']) := by
    rw [← he]
    simp
  rw [hread] at hq
  obtain ⟨hlaid', hweave⟩ := hlaid.concat ⟨e, rfl⟩ hq
  exact ⟨front, _, hlaid', by rw [hweave, hread]; simp⟩

/-! ### The invariant -/

namespace Nesting

/-- The **invariant of reading**: templates with an open hole lie in what has been read, and closed
templates lie in the source. -/
structure Sound (source read : Text) (n : Nesting) : Prop where
  holes : ∀ l ∈ n.levels, ∀ u s, l.opener = .hole u s → u.IsOpenIn (LineMap.ofText source) read
  closed : ∀ t ∈ n.closed, t.IsIn source

/-- The invariant holds at the start. -/
theorem sound_empty (source : Text) : Sound source [] {} where
  holes _ hl := absurd hl List.not_mem_nil
  closed _ ht := absurd ht List.not_mem_nil

/-- The invariant goes on to hold where no template is closed and no hole is opened. -/
theorem Sound.keeps {source read read' : Text} {n n' : Nesting} (h : n.Sound source read)
    (hn : n.Keeps n') (hread : read <+: read') : n'.Sound source read' where
  holes l hl u s ho := by
    obtain ⟨m, hm, ho⟩ := hn.1 l hl u s ho
    obtain ⟨front, gaps, hlaid, hprefix⟩ := h.holes m hm u s ho
    exact ⟨front, gaps, hlaid, hprefix.trans hread⟩
  closed t ht := h.closed t (hn.2 ▸ ht)

/-- A template with an open hole lies in what has been read. -/
theorem Sound.isOpenIn {source read : Text} {n : Nesting} (h : n.Sound source read) {u : Unclosed}
    {s : Nat} (hu : .hole u s ∈ n.openers) : u.IsOpenIn (LineMap.ofText source) read := by
  obtain ⟨l, hl, ho⟩ := List.mem_map.1 hu
  exact h.holes l hl u s ho

/-- A template whose parts are all laid is closed. -/
theorem Sound.closeTemplate {source read read' : Text} {n : Nesting} (h : n.Sound source read)
    (hread : read <+: read') {u : Unclosed} {stop : Nat}
    (hu : ∀ t ∈ u.close? stop, t.IsIn source) : (n.closeTemplate u stop).Sound source read' := by
  have hclosed :
      Sound source read { n.dropChain with closed := n.closed ++ (u.close? stop).toList } := by
    refine ⟨h.holes, fun t ht => ?_⟩
    rcases List.mem_append.1 ht with ht | ht
    · exact h.closed t ht
    · exact hu t (Option.mem_toList.1 ht)
  exact hclosed.keeps (.settle .backtick [] _) hread

/-- A template whose parts are laid in front of a hole opens it. -/
theorem Sound.openHole {source read read' : Text} {n : Nesting} (h : n.Sound source read)
    (hread : read <+: read') {u : Unclosed} {start : Nat}
    (hu : u.IsOpenIn (LineMap.ofText source) read') : (n.openHole u start).Sound source read' where
  holes l hl v s ho := by
    rcases List.mem_cons.1 hl with rfl | hl
    · cases ho
      exact hu
    · exact (h.keeps (.refl n) hread).holes l hl v s ho
  closed := h.closed

end Nesting

/-! ### Steps -/

/-- The place that reading has come to is sound: what has been read and what is left make up the
source. -/
def Reading.Sound (source : Text) (r : Reading) : Prop :=
  ∃ read, source = read ++ r.rest ∧ r.offset = Text.byteSize read ∧ r.nesting.Sound source read

section

variable {source read t : Text} {n : Nesting} {o : Nat} {c : Char} {u : Unclosed} {r : Reading}

/-- A literal part stands where it has been read. -/
theorem Quasi.standsBehind_ofRaw {lines : LineMap} {raw : Text} (hraw : RawText.IsRaw raw) :
    (Quasi.ofRaw lines (Text.byteSize read) raw).StandsBehind lines read where
  span := by simp [ofRaw]
  start := rfl
  stop := by simp [ofRaw]
  raw := hraw

/-- **A literal part is read where it is due.** -/
theorem sound_readLiteral (hsource : source = read ++ t) (ho : o = Text.byteSize read)
    (hn : n.Sound source read) (hu : u.IsDueAt (LineMap.ofText source) read)
    (h : readLiteral (LineMap.ofText source) u ⟨n, o, t⟩ = .ok r) : r.Sound source := by
  subst ho
  obtain ⟨raw, rest, hraw, hend⟩ := readLiteral_cases h
  obtain ⟨front, gaps, hlaid, hweave⟩ := hu _ (Quasi.standsBehind_ofRaw hraw)
  change front ++ weave _ gaps = read ++ raw at hweave
  rcases hend with ⟨rfl, rfl⟩ | ⟨rfl, rfl⟩
  · refine ⟨read ++ raw ++ ['\x60'], by simp [hsource], ?_, hn.closeTemplate (by simp) ?_⟩
    · simp only [Text.byteSize_append]
      rfl
    · intro t ht
      obtain ⟨c, hc, rfl⟩ := Option.map_eq_some_iff.1 ht
      refine ⟨front, gaps, rest, hlaid, ?_⟩
      simp only [Unclosed.addQuasi]
      rw [hweave, hsource, List.append_assoc]
  · refine ⟨read ++ raw ++ ['$', '{'], by simp [hsource], ?_, hn.openHole (by simp) ?_⟩
    · simp only [Text.byteSize_append]
      rfl
    · refine ⟨front, gaps, hlaid, ?_⟩
      simp only [Unclosed.addQuasi]
      exact ⟨[], by rw [List.append_nil, hweave]⟩

/-- **Reading a lexeme keeps the invariant.** -/
theorem sound_readLexeme (hsource : source = read ++ c :: t) (hn : n.Sound source read)
    (h : readLexeme (LineMap.ofText source) n (Text.byteSize read) c t = .ok r) :
    r.Sound source := by
  have hsource' : source = read ++ [c] ++ t := by simp [hsource]
  rcases readLexeme_cases h with ⟨hkeeps, done, hdone, hoffset⟩ | ⟨rfl, m, comments, ho, hc, h⟩ |
    ⟨rfl, m, u, s, ho, hc, h⟩
  · refine ⟨read ++ done, ?_, ?_, hn.keeps hkeeps (List.prefix_append _ _)⟩
    · rw [hsource, hdone, List.append_assoc]
    · rw [hoffset, Text.byteSize_append]
  · have hm : n.Keeps m := .of_openers (ho ▸ List.Subset.refl _) hc
    refine sound_readLiteral hsource' ?_ (hn.keeps hm (List.prefix_append _ _))
      (Unclosed.isDueAt_opening rfl) h
    rw [Text.byteSize_append]
    rfl
  · have hm : n.Keeps m := .of_openers (ho ▸ List.subset_cons_self _ _) hc
    have hu := hn.isOpenIn (ho ▸ List.mem_cons_self)
    refine sound_readLiteral (u := u.addHole _) hsource' ?_ (hn.keeps hm (List.prefix_append _ _))
      hu.isDueAt h
    rw [Text.byteSize_append]
    rfl

/-- What is read to the end is sound. -/
theorem sound_readToEnd {n' : Nesting} (hsource : source = read ++ t) (hn : n.Sound source read)
    (h : readToEnd (LineMap.ofText source) n (Text.byteSize read) t = .ok n') :
    ∀ t ∈ n'.closed, t.IsIn source := by
  obtain ⟨_, _, _, _, hsound⟩ := readToEnd_induction
    (P := fun n o t => Reading.Sound source ⟨n, o, t⟩)
    (fun ⟨_, hsource, ho, hn⟩ hr => sound_readLexeme hsource hn (ho ▸ hr))
    ⟨read, hsource, rfl, hn⟩ h
  exact hsound.closed

end

/-- The templates that are found are those closed when the source has been read, by the start of
their tags. -/
theorem findTemplates_eq_ok_iff {source : Text} {ts : List Tagged} :
    findTemplates source = .ok ts ↔ ∃ n, readToEnd (LineMap.ofText source) {} 0 source = .ok n ∧
      n.closed.mergeSort (fun t u => t.span.start ≤ u.span.start) = ts := by
  rw [findTemplates]
  cases readToEnd (LineMap.ofText source) {} 0 source <;>
    simp [bind, Except.bind, pure, Except.pure]

/-- Of two templates, the inner one is closed first and found last. -/
theorem findTemplates_of_closed_pair {source : Text} {t u : Tagged}
    (h : (readToEnd (LineMap.ofText source) {} 0 source).map Nesting.closed = .ok [u, t])
    (hlt : t.span.start < u.span.start) : findTemplates source = .ok [t, u] := by
  cases hn : readToEnd (LineMap.ofText source) {} 0 source with
  | error e => simp [hn, Except.map] at h
  | ok n =>
      have hclosed : n.closed = [u, t] := by simpa [hn, Except.map] using h
      refine findTemplates_eq_ok_iff.2 ⟨n, hn, ?_⟩
      rw [hclosed, List.mergeSort]
      simp [List.MergeSort.Internal.splitInTwo, hlt]

/-- **Every template that is found lies in the source.** -/
theorem isIn_of_mem_findTemplates {source : Text} {ts : List Tagged}
    (h : findTemplates source = .ok ts) {t : Tagged} (ht : t ∈ ts) : t.IsIn source := by
  obtain ⟨n, hr, rfl⟩ := findTemplates_eq_ok_iff.1 h
  exact sound_readToEnd (List.nil_append source).symm (Nesting.sound_empty source) hr t
    (List.mem_mergeSort.1 ht)

end StyleBlocks.Template
