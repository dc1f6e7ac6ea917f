import StyleBlocks.Proofs.Template.Reported

/-!
# How a template is written

A template that is found stands in the source as templates are written: a backtick, raw text, holes
between `$` with a brace and a closing brace, each with more raw text behind it, and a backtick, where
the template ends. `StyleBlocks.Proofs.Template.Reported` says that the literal parts lie in the
source one behind the other; here the holes between them and the backticks around them are added.

## Main results

* `framed_readLexeme`: reading a lexeme keeps holes between literal parts.
* `isFramed_of_mem_findTemplates`: the holes of a template lie between its literal parts.
* `isWrittenIn_of_mem_findTemplates`: how a template is written that is found.
-/

namespace StyleBlocks.Template

/-! ### Parts and holes in turn -/

/-- Literal parts and holes stand **in turn**: each hole begins behind the dollar sign and the brace
that end a literal part, and ends at the brace in front of the next one. -/
def InTurn (lines : LineMap) : List Quasi → List Hole → Prop
  | [_], [] => True
  | q :: r :: qs, h :: hs =>
    h.span.start = q.span.stop + 2 ∧ h.span.stop + 1 = r.span.start ∧
      h.start = lines.position h.span.start ∧ InTurn lines (r :: qs) hs
  | _, _ => False

section

variable {lines : LineMap} {qs : List Quasi} {hs : List Hole}

/-- There is one more literal part than there are holes. -/
theorem InTurn.length_eq (h : InTurn lines qs hs) : qs.length = hs.length + 1 := by
  fun_induction InTurn lines qs hs with
  | case1 => rfl
  | case2 q r qs h hs ih => simpa using ih h.2.2.2
  | case3 => exact h.elim

/-- One more hole, and the literal part behind it. -/
theorem InTurn.concat {hole : Hole} {q : Quasi} (h : InTurn lines qs hs)
    (hlast : ∀ p ∈ qs.getLast?, hole.span.start = p.span.stop + 2)
    (hstop : hole.span.stop + 1 = q.span.start)
    (hstart : hole.start = lines.position hole.span.start) :
    InTurn lines (qs ++ [q]) (hs ++ [hole]) := by
  fun_induction InTurn lines qs hs with
  | case1 p => exact ⟨hlast p rfl, hstop, hstart, trivial⟩
  | case2 p r qs g hs ih =>
      obtain ⟨hp, hr, hg, hrest⟩ := h
      exact ⟨hp, hr, hg, ih hrest fun p hp => hlast p (by rwa [List.getLast?_cons_cons])⟩
  | case3 => exact h.elim

/-- What stands between two literal parts that follow each other. -/
theorem InTurn.getElem? (h : InTurn lines qs hs) {i : Nat} {q r : Quasi} {hole : Hole}
    (hq : qs[i]? = some q) (hr : qs[i + 1]? = some r) (hhole : hs[i]? = some hole) :
    hole.span.start = q.span.stop + 2 ∧ hole.span.stop + 1 = r.span.start ∧
      hole.start = lines.position hole.span.start := by
  fun_induction InTurn lines qs hs generalizing i with
  | case1 => simp at hhole
  | case2 p s qs g hs ih =>
      obtain ⟨hp, hs, hg, hrest⟩ := h
      cases i with
      | zero =>
          cases hq
          cases hr
          cases hhole
          exact ⟨hp, hs, hg⟩
      | succ i => exact ih hrest hq hr hhole
  | case3 => exact h.elim

end

/-! ### The invariant -/

/-- A backtick stands at an offset of a source. -/
def BacktickAt (source : Text) (o : Nat) : Prop :=
  ∃ front back, source = front ++ '\x60' :: back ∧ o = Text.byteSize front

/-- A template whose innermost hole starts at an offset is **framed** up to there. -/
structure Unclosed.IsFramed (source : Text) (u : Unclosed) (s : Nat) : Prop where
  opening : BacktickAt source u.opening
  first : ∀ q ∈ u.quasis.head?, q.span.start = u.opening + 1
  inTurn : InTurn (LineMap.ofText source) u.quasis u.holes
  last : ∀ q ∈ u.quasis.getLast?, q.span.stop + 2 = s

/-- A template is **framed** by two backticks, with its holes between its literal parts. -/
structure Tagged.IsFramed (source : Text) (t : Tagged) : Prop where
  opening : ∃ o, BacktickAt source o ∧ ∀ q ∈ t.quasis.head?, q.span.start = o + 1
  inTurn : InTurn (LineMap.ofText source) t.quasis t.holes
  closing : ∀ q ∈ t.quasis.getLast?, t.span.stop = q.span.stop + 1

/-- A template that goes on with a literal part at an offset. -/
structure Unclosed.GoesOnAt (source : Text) (u : Unclosed) (o : Nat) : Prop where
  opening : BacktickAt source u.opening
  next : ∀ q : Quasi, q.span.start = o →
    (∀ p ∈ (u.addQuasi q).quasis.head?, p.span.start = u.opening + 1) ∧
      InTurn (LineMap.ofText source) (u.addQuasi q).quasis u.holes

/-- The **invariant of framing**: templates are framed, those with an open hole up to that hole. -/
structure Nesting.Framed (source : Text) (n : Nesting) : Prop where
  holes : ∀ u s, .hole u s ∈ n.openers → u.IsFramed source s
  closed : ∀ t ∈ n.closed, t.IsFramed source

section

variable {source t : Text} {n n' : Nesting} {o s : Nat} {u : Unclosed} {r : Reading}

/-- Where its hole is closed a template goes on. -/
theorem Unclosed.IsFramed.goesOnAt (h : u.IsFramed source s) (o : Nat) :
    (u.addHole ⟨⟨s, o⟩, (LineMap.ofText source).position s⟩).GoesOnAt source (o + 1) where
  opening := h.opening
  next q hq := by
    refine ⟨?_, h.inTurn.concat (fun p hp => (h.last p hp).symm) hq.symm rfl⟩
    intro p hp
    cases hquasis : u.quasis with
    | nil =>
        have hlength := h.inTurn.length_eq
        rw [hquasis] at hlength
        contradiction
    | cons first qs =>
        refine h.first p ?_
        simp only [addQuasi, addHole, hquasis] at hp ⊢
        exact hp

/-- At its opening backtick a template goes on with its first literal part. -/
theorem Unclosed.goesOnAt_opening (h : BacktickAt source u.opening) (hq : u.quasis = [])
    (hh : u.holes = []) : u.GoesOnAt source (u.opening + 1) where
  opening := h
  next q hstart := by
    simp only [addQuasi, hq, hh, List.nil_append, List.head?_cons, Option.mem_def,
      Option.some.injEq]
    exact ⟨fun p hp => hp ▸ hstart, trivial⟩

/-- Templates stay framed where no template is closed and no hole is opened. -/
theorem Nesting.Framed.keeps (h : n.Framed source) (hn : n.Keeps n') : n'.Framed source where
  holes u s hu := h.holes u s (hn.mem_openers hu)
  closed t ht := h.closed t (hn.2 ▸ ht)

/-! ### Steps -/

/-- **Reading a literal part keeps the invariant** if its template goes on there. -/
theorem framed_readLiteral (hn : n.Framed source) (hu : u.GoesOnAt source o)
    (h : readLiteral (LineMap.ofText source) u ⟨n, o, t⟩ = .ok r) : r.nesting.Framed source := by
  obtain ⟨raw, rest, -, hend⟩ := readLiteral_cases h
  obtain ⟨hfirst, hturn⟩ := hu.next (.ofRaw (LineMap.ofText source) o raw) rfl
  have hlast : ∀ q ∈ (u.addQuasi (.ofRaw (LineMap.ofText source) o raw)).quasis.getLast?,
      q.span.stop = o + Text.byteSize raw := by
    simp [Unclosed.addQuasi, Quasi.ofRaw]
  rcases hend with ⟨-, rfl⟩ | ⟨-, rfl⟩
  · refine ⟨by simpa using hn.holes, fun t ht => ?_⟩
    rw [Nesting.closed_closeTemplate, List.mem_append] at ht
    rcases ht with ht | ht
    · exact hn.closed t ht
    · obtain ⟨c, -, rfl⟩ := Option.map_eq_some_iff.1 (Option.mem_toList.1 ht)
      exact ⟨⟨u.opening, hu.opening, hfirst⟩, hturn, fun q hq => by rw [hlast q hq]⟩
  · refine ⟨fun v s hv => ?_, hn.closed⟩
    rw [Nesting.openers_openHole, List.mem_cons] at hv
    rcases hv with hv | hv
    · cases hv
      exact ⟨hu.opening, hfirst, hturn, fun q hq => by rw [hlast q hq]⟩
    · exact hn.holes v s hv

/-- **Reading a lexeme keeps the invariant.** -/
theorem framed_readLexeme {read : Text} {c : Char} (hsource : source = read ++ c :: t)
    (hn : n.Framed source)
    (h : readLexeme (LineMap.ofText source) n (Text.byteSize read) c t = .ok r) :
    r.nesting.Framed source := by
  rcases readLexeme_cases h with ⟨hkeeps, -⟩ | ⟨rfl, m, comments, ho, hc, h⟩ |
    ⟨rfl, m, u, s, ho, hc, h⟩
  · exact hn.keeps hkeeps
  · have hm : n.Keeps m := .of_openers (ho ▸ List.Subset.refl _) hc
    exact framed_readLiteral (hn.keeps hm)
      (Unclosed.goesOnAt_opening ⟨read, t, hsource, rfl⟩ rfl rfl) h
  · have hm : n.Keeps m := .of_openers (ho ▸ List.subset_cons_self _ _) hc
    have hu := hn.holes u s (ho ▸ List.mem_cons_self)
    exact framed_readLiteral (hn.keeps hm) (hu.goesOnAt _) h

/-- **The holes of a template lie between its literal parts**, and it is framed by backticks. -/
theorem isFramed_of_mem_findTemplates {ts : List Tagged} (h : findTemplates source = .ok ts)
    {t : Tagged} (ht : t ∈ ts) : t.IsFramed source := by
  obtain ⟨n, hr, rfl⟩ := findTemplates_eq_ok_iff.1 h
  obtain ⟨_, -, hn⟩ := readToEnd_induction
    (P := fun n o t => Reading.Sound source ⟨n, o, t⟩ ∧ n.Framed source)
    (fun ⟨⟨_, hsource, ho, hn⟩, hframed⟩ hr =>
      ⟨sound_readLexeme hsource hn (ho ▸ hr), framed_readLexeme hsource hframed (ho ▸ hr)⟩)
    ⟨⟨[], rfl, rfl, Nesting.sound_empty source⟩, by simp [Nesting.openers], by simp⟩ hr
  exact hn.closed t (List.mem_mergeSort.1 ht)

end

/-! ### Literal parts and what is between them -/

section

variable {lines : LineMap} {front : Text} {qs : List Quasi} {gs : List Text}

/-- A literal part that is laid stands somewhere. -/
theorem Laid.exists_standsBehind (h : Laid lines front qs gs) {q : Quasi} (hq : q ∈ qs) :
    ∃ f b, front ++ weave qs gs = f ++ q.raw ++ b ∧ q.StandsBehind lines f := by
  fun_induction Laid lines front qs gs with
  | case1 front p =>
      obtain rfl := List.mem_singleton.1 hq
      exact ⟨front, [], by simp [weave], h⟩
  | case2 front p r qs g gs ih =>
      obtain ⟨hp, -, hrest⟩ := h
      rcases List.mem_cons.1 hq with rfl | hq
      · exact ⟨front, g ++ weave (r :: qs) gs, by simp [weave], hp⟩
      · obtain ⟨f, b, hfb, hq⟩ := ih hrest hq
        exact ⟨f, b, by rw [← hfb]; simp [weave], hq⟩
  | case3 => exact h.elim

/-- Between two literal parts that follow each other a hole stands. -/
theorem Laid.exists_hole (h : Laid lines front qs gs) {i : Nat} {q r : Quasi}
    (hq : qs[i]? = some q) (hr : qs[i + 1]? = some r) :
    ∃ f g b, front ++ weave qs gs = f ++ g ++ b ∧ IsHole g ∧
      q.span.stop = Text.byteSize f ∧ r.span.start = Text.byteSize (f ++ g) := by
  fun_induction Laid lines front qs gs generalizing i with
  | case1 => simp at hr
  | case2 front p s qs g gs ih =>
      obtain ⟨hp, hg, hrest⟩ := h
      cases i with
      | zero =>
          cases hq
          cases hr
          exact ⟨front ++ q.raw, g, weave (r :: qs) gs, by simp [weave], hg, by rw [hp.span],
            by rw [hrest.head.span]⟩
      | succ i =>
          obtain ⟨f, g', b, hfb, hrest⟩ := ih hrest hq hr
          exact ⟨f, g', b, by rw [← hfb]; simp [weave], hrest⟩
  | case3 => exact h.elim

end

/-! ### Templates that are found -/

/-- How a template **is written** in a source. -/
structure Tagged.IsWrittenIn (source : Text) (t : Tagged) : Prop where
  /-- There is one more literal part than there are holes. -/
  length_quasis : t.quasis.length = t.holes.length + 1
  /-- A backtick stands in front of the first literal part. -/
  opening : ∃ q o, t.quasis.head? = some q ∧ q.span.start = o + 1 ∧
    Text.slice? o (o + 1) source = some ['\x60']
  /-- A backtick stands behind the last literal part, and the template ends there. -/
  closing : ∃ q, t.quasis.getLast? = some q ∧ t.span.stop = q.span.stop + 1 ∧
    Text.slice? q.span.stop (q.span.stop + 1) source = some ['\x60']
  /-- Between two literal parts stand a dollar sign, a brace, what is under the span of the hole, and
  a brace. -/
  hole : ∀ i q r h, t.quasis[i]? = some q → t.quasis[i + 1]? = some r → t.holes[i]? = some h →
    h.span = ⟨q.span.stop + 2, r.span.start - 1⟩ ∧
      h.start = (LineMap.ofText source).position h.span.start ∧
      ∃ e, h.span.of? source = some e ∧
        Text.slice? q.span.stop r.span.start source = some ('$' :: '{' :: (e ++ ['}']))
  /-- A literal part is what stands under its span, and knows the positions of the span. -/
  quasi : ∀ q ∈ t.quasis, q.span.of? source = some q.raw ∧
    q.start = (LineMap.ofText source).position q.span.start ∧
    q.stop = (LineMap.ofText source).position q.span.stop
  /-- A literal part is raw text. -/
  isRaw : ∀ q ∈ t.quasis, RawText.IsRaw q.raw ∧ RawText.escape q.raw = q.raw

/-- **How a template is written that is found**: one literal part more than holes, each part raw text
under its span, a hole in its delimiters between two parts, and a backtick at each end. -/
theorem isWrittenIn_of_mem_findTemplates {source : Text} {ts : List Tagged}
    (h : findTemplates source = .ok ts) {t : Tagged} (ht : t ∈ ts) : t.IsWrittenIn source := by
  obtain ⟨front, gaps, back, hlaid, hsource⟩ := isIn_of_mem_findTemplates h ht
  obtain ⟨⟨o, hopening, hfirst⟩, hturn, hclosing⟩ := isFramed_of_mem_findTemplates h ht
  refine ⟨hturn.length_eq, ?_, ?_, fun i q r hole hq hr hhole => ?_, fun q hq => ?_, fun q hq => ?_⟩
  · obtain ⟨q, hq, -⟩ := hlaid.exists_head
    obtain ⟨f, b, hfb, rfl⟩ := hopening
    have hslice := Text.slice?_append f ['\x60'] b
    rw [List.append_assoc, List.singleton_append, ← hfb, Text.byteSize_append] at hslice
    exact ⟨q, _, hq, hfirst q hq, hslice⟩
  · obtain ⟨q, hq, hstop⟩ := hlaid.exists_getLast
    have hslice := Text.slice?_append (front ++ weave t.quasis gaps) ['\x60'] back
    rw [List.append_assoc _ ['\x60'], List.singleton_append, ← hsource, Text.byteSize_append _ ['\x60'],
      ← hstop] at hslice
    exact ⟨q, hq, hclosing q hq, hslice⟩
  · obtain ⟨hstart, hstop, hpos⟩ := hturn.getElem? hq hr hhole
    obtain ⟨f, g, b, hfb, ⟨e, rfl⟩, hqstop, hrstart⟩ := hlaid.exists_hole hq hr
    have hsplit : source = f ++ '$' :: '{' :: (e ++ ['}']) ++ (b ++ '\x60' :: back) := by
      rw [hsource, hfb, List.append_assoc]
    rw [Text.byteSize_append, byteSize_hole] at hrstart
    have hspan : hole.span = ⟨Text.byteSize f + 2, Text.byteSize f + 2 + Text.byteSize e⟩ := by
      have hbegin : hole.span.start = Text.byteSize f + 2 := by rw [hstart, hqstop]
      have hend : hole.span.stop = Text.byteSize f + 2 + Text.byteSize e := by omega
      exact congrArg₂ Span.mk hbegin hend
    refine ⟨?_, hpos, e, ?_, ?_⟩
    · rw [hspan, hqstop, hrstart]
      exact congrArg (Span.mk _) (by omega)
    · rw [Span.of?, hspan, hsplit]
      exact slice?_hole f e _
    · rw [hqstop, hrstart, ← byteSize_hole, ← Text.byteSize_append, hsplit]
      exact Text.slice?_append f _ _
  · obtain ⟨f, b, hfb, hstands⟩ := hlaid.exists_standsBehind hq
    have hslice := Text.slice?_append f q.raw (b ++ '\x60' :: back)
    rw [← List.append_assoc, ← hfb, ← hsource] at hslice
    rw [Span.of?, hstands.span]
    exact ⟨hslice, hstands.start, hstands.stop⟩
  · have hraw := hlaid.isRaw q hq
    exact ⟨hraw, RawText.isRaw_iff_escape_eq_self.1 hraw⟩

/-- A template in a hole of another one, whose only literal part is an escaped backtick. -/
theorem isWrittenIn_of_mem_findTemplates_escapedBacktick :
    let source : Text := "css`a$\x7bb`\\``\x7dc`".toList
    let t : Tagged :=
      { tag := .identifier "css".toList, span := ⟨0, 15⟩
        quasis := [⟨⟨4, 5⟩, ⟨1, 5⟩, ⟨1, 6⟩, ['a']⟩, ⟨⟨13, 14⟩, ⟨1, 14⟩, ⟨1, 15⟩, ['c']⟩]
        holes := [⟨⟨7, 12⟩, ⟨1, 8⟩⟩], leadingComments := [] }
    let u : Tagged :=
      { tag := .identifier ['b'], span := ⟨7, 12⟩
        quasis := [⟨⟨9, 11⟩, ⟨1, 10⟩, ⟨1, 12⟩, ['\\', '\x60']⟩], holes := [], leadingComments := [] }
    findTemplates source = .ok [t, u] ∧ t.IsWrittenIn source ∧ u.IsWrittenIn source := by
  intro source t u
  have hts : findTemplates source = .ok [t, u] :=
    findTemplates_of_closed_pair (by decide +kernel) (by decide)
  exact ⟨hts, isWrittenIn_of_mem_findTemplates hts (by simp),
    isWrittenIn_of_mem_findTemplates hts (by simp)⟩

end StyleBlocks.Template
