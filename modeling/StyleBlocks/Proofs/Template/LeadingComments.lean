import Mathlib.Data.List.Pairwise
import StyleBlocks.Proofs.Template.Holes
import StyleBlocks.Proofs.Template.LevelSteps
import StyleBlocks.Proofs.Template.Written

/-!
# The comments that lead nested templates

A template is led by the comments in front of the statements around it, those of outer levels first.
While one of its holes is open, the levels below that hole stay as they were at its opening backtick,
so the comments that lead the template are the first ones that lead everything in the hole. A comment
that leads a template therefore leads all templates nested in it.

## Main results

* `led_readLexeme`: reading a lexeme keeps the invariant.
* `leadingComments_isPrefix`: the comments that lead a template are the first ones of those that lead a
  template in one of its holes.
-/

namespace StyleBlocks.Template

namespace Nesting

/-- The templates whose hole is open are led by the comments of the levels below that hole. -/
def Recorded (base : Statement) : List Level → Prop
  | [] => True
  | l :: ls => (∀ u s, l.opener = .hole u s → u.leadingComments = leadingOf base ls) ∧
      Recorded base ls

/-- The comments that lead a template whose hole is open also lead what is read in that hole. -/
theorem Recorded.isPrefix {base : Statement} {ls : List Level} (h : Recorded base ls) {u : Unclosed}
    {s : Nat} (hu : .hole u s ∈ ls.map Level.opener) : u.leadingComments <+: leadingOf base ls := by
  induction ls with
  | nil => simp at hu
  | cons l ls ih =>
      rw [leadingOf_cons]
      refine List.IsPrefix.trans ?_ (List.prefix_append _ _)
      rcases List.mem_cons.1 hu with hl | hu
      · exact h.1 u s hl.symm ▸ List.prefix_refl _
      · exact ih h.2 hu

/-- The **invariant of leading comments**: what leads a template leads everything behind its opening
backtick until it is closed. -/
structure Led (n : Nesting) : Prop where
  levels : Recorded n.base n.levels
  holes : ∀ u s, .hole u s ∈ n.openers → ∀ t ∈ n.closed, u.opening < t.span.start →
    u.leadingComments <+: t.leadingComments
  closed : n.closed.Pairwise fun t r => t.IsInContentOf r →
    r.leadingComments <+: t.leadingComments

section

variable {n m : Nesting} {u : Unclosed} {o s stop : Nat} {l : Level} {ls : List Level} {rest : Text}
  {r : Reading}

namespace Led

/-- The invariant holds at the start. -/
theorem init : Led {} :=
  ⟨trivial, by simp [openers], by simp⟩

/-- A nesting that agrees with one that has the invariant has it too. -/
theorem agrees (h : n.Led) (hm : n.Agrees m) : m.Led := by
  obtain ⟨hbase, hlevels, hclosed⟩ := hm
  refine ⟨by rw [hbase, hlevels]; exact h.levels, ?_, hclosed ▸ h.closed⟩
  rw [openers, hlevels, hclosed]
  exact h.holes

/-- What happens to the innermost statement is recorded by no template. -/
theorem modifyStatement (h : n.Led) (f : Statement → Statement) : (n.modifyStatement f).Led := by
  refine ⟨?_, by simpa using h.holes, by simpa using h.closed⟩
  have hlevels := h.levels
  cases hl : n.levels with
  | nil => simp [Nesting.modifyStatement, hl, Recorded]
  | cons l ls =>
      rw [hl] at hlevels
      simpa [Nesting.modifyStatement, hl, Recorded] using hlevels

/-- Opening a level that is no hole keeps the invariant. -/
theorem openLevel (h : n.Led) {p : Opener} (hp : ∀ u s, p ≠ .hole u s) : (n.openLevel p).Led where
  levels := ⟨fun u s hu => absurd hu (hp u s), h.levels⟩
  holes u s hu := by
    rcases List.mem_cons.1 hu with hu | hu
    · exact absurd hu.symm (hp u s)
    · exact h.holes u s hu
  closed := h.closed

/-- The levels below the innermost one. -/
theorem tail (h : n.Led) (hl : n.levels = l :: ls) : Led { n with levels := ls } where
  levels := (show Recorded n.base (l :: ls) from hl ▸ h.levels).2
  holes u s hu := h.holes u s (by rw [openers, hl]; exact List.mem_cons_of_mem _ hu)
  closed := h.closed

/-- A template that is closed is led by what led it when it was opened. -/
theorem closeTemplate (h : n.Led) (hu : u.leadingComments = n.leadingComments)
    (hbehind : ∀ t ∈ n.closed, u.opening < t.span.start → u.leadingComments <+: t.leadingComments)
    (hfits : u.Fits n.openers n.closed) (hne : u.quasis ≠ []) : (n.closeTemplate u stop).Led := by
  have hclosed :
      Led { n with closed := n.closed ++ (u.close? stop).toList } := by
    refine ⟨h.levels, fun v s hv t ht hlt => ?_, ?_⟩
    · rcases List.mem_append.1 ht with ht | ht
      · exact h.holes v s hv t ht hlt
      · obtain ⟨c, -, rfl⟩ := Option.map_eq_some_iff.1 (Option.mem_toList.1 ht)
        rw [hu]
        exact h.levels.isPrefix hv
    · refine List.pairwise_append.2 ⟨h.closed, ?_, fun t ht r hr hin => ?_⟩
      · cases u.close? stop <;> simp
      · have hr := Option.mem_toList.1 hr
        have hstart := hfits.content_start hne hr
        have hleads := hbehind t ht (by rw [Nat.lt_iff_add_one_le, ← hstart]; exact hin.1)
        obtain ⟨c, -, rfl⟩ := Option.map_eq_some_iff.1 hr
        exact hleads
  exact (hclosed.modifyStatement _).agrees (agrees_closeTemplate u stop n)

/-- A template whose next hole is opened is led by what led it when it was opened. -/
theorem openHole (h : n.Led) (hu : u.leadingComments = n.leadingComments)
    (hbehind : ∀ t ∈ n.closed, u.opening < t.span.start → u.leadingComments <+: t.leadingComments) :
    (n.openHole u s).Led where
  levels := by
    refine ⟨fun v t hv => ?_, h.levels⟩
    cases hv
    exact hu
  holes v t hv := by
    rw [openers_openHole, List.mem_cons] at hv
    rcases hv with hv | hv
    · cases hv
      exact hbehind
    · exact h.holes v t hv
  closed := h.closed

end Led

end

end Nesting

/-! ### Steps -/

section

variable {lines : LineMap} {n : Nesting} {u : Unclosed} {o : Nat} {c : Char} {rest : Text}
  {r : Reading}

/-- **Reading a literal part keeps the invariant** if its template is led by what is open there. -/
theorem led_readLiteral (h : n.Led) (hu : u.leadingComments = n.leadingComments)
    (hbehind : ∀ t ∈ n.closed, u.opening < t.span.start → u.leadingComments <+: t.leadingComments)
    (hfits : u.Fits n.openers n.closed) (hdue : u.quasis = [] → o = u.opening + 1)
    (hr : readLiteral lines u ⟨n, o, rest⟩ = .ok r) : r.nesting.Led := by
  obtain ⟨raw, rest, -, hend⟩ := readLiteral_cases hr
  rcases hend with ⟨-, rfl⟩ | ⟨-, rfl⟩
  · exact h.closeTemplate (u := u.addQuasi _) hu hbehind (hfits.concat hdue)
      (by simp [Unclosed.addQuasi])
  · exact h.openHole (u := u.addQuasi _) hu hbehind

/-- **Reading a lexeme keeps the invariant.** -/
theorem led_readLexeme (hl : n.Laminar o) (h : n.Led) (hr : readLexeme lines n o c rest = .ok r) :
    r.nesting.Led := by
  cases Nesting.levelStep_of_readLexeme hr with
  | within hm => exact (h.modifyStatement _).agrees hm
  | opening _ _ hp hm => exact ((h.modifyStatement _).openLevel hp).agrees hm
  | closing _ _ hlevels _ hm => exact ((h.tail hlevels).modifyStatement _).agrees hm
  | @template m _ hm hread =>
      have hfits := hl.unclosed_fits m.leadingComments
      have ho : m.openers = n.openers := by rw [hm.openers_eq, Nesting.openers_modifyStatement]
      have hc : m.closed = n.closed := by rw [hm.closed, Nesting.closed_modifyStatement]
      rw [← ho, ← hc] at hfits
      refine led_readLiteral ((h.modifyStatement _).agrees hm) rfl (fun t ht hlt => ?_) hfits
        (fun _ => rfl) hread
      obtain ⟨hproper, hstop⟩ := hl.proper t (hc ▸ ht)
      have := hproper.start_lt_stop
      exact absurd hlt (by simp only; omega)
  | @hole m u s st ls _ hlevels hm hread =>
      have hopeners : n.openers = .hole u s :: m.openers := by
        rw [Nesting.openers, hlevels, hm.openers_eq]
        rfl
      have hc : m.closed = n.closed := hm.closed
      have hlead : u.leadingComments = m.leadingComments := by
        have hrecorded := h.levels
        rw [hlevels] at hrecorded
        exact (hrecorded.1 u s rfl).trans hm.leadingComments_eq.symm
      have hfit := hl.levels
      rw [hopeners] at hfit
      obtain ⟨-, ⟨hu, hne, -⟩, -⟩ := hfit
      refine led_readLiteral (u := u.addHole _) ((h.tail hlevels).agrees hm) hlead
        (fun t ht hlt => ?_) ?_ (fun hnil => absurd hnil hne) hread
      · exact h.holes u s (hopeners ▸ List.mem_cons_self) t (hc ▸ ht) hlt
      · exact hc ▸ ⟨hu.tag, hu.avoids, hu.start⟩

end

/-! ### Holes and contents -/

/-- A literal part that is laid lies where the parts are laid. -/
theorem Laid.span_isIn {lines : LineMap} {front : Text} {qs : List Quasi} {gs : List Text}
    (h : Laid lines front qs gs) {q : Quasi} (hq : q ∈ qs) :
    q.span.IsIn ⟨Text.byteSize front, Text.byteSize (front ++ weave qs gs)⟩ ∧
      q.span.start ≤ q.span.stop := by
  fun_induction Laid lines front qs gs with
  | case1 front p =>
      obtain rfl := List.mem_singleton.1 hq
      rw [Quasi.StandsBehind.span h]
      simp [Span.IsIn, weave]
  | case2 front p r qs g gs ih =>
      obtain ⟨hp, -, hrest⟩ := h
      rcases List.mem_cons.1 hq with rfl | hq
      · rw [hp.span]
        simp only [Span.IsIn, weave, Text.byteSize_append]
        omega
      · obtain ⟨⟨hstart, hstop⟩, hle⟩ := ih hrest hq
        simp only [Span.IsIn, weave, Text.byteSize_append] at hstart hstop ⊢
        omega
  | case3 => exact h.elim

/-- **A hole lies between the backticks** of its template. -/
theorem isIn_content_of_mem_holes {source : Text} {ts : List Tagged}
    (h : findTemplates source = .ok ts) {t : Tagged} (ht : t ∈ ts) {hole : Hole}
    (hhole : hole ∈ t.holes) : hole.span.IsIn t.content := by
  obtain ⟨front, gaps, back, hlaid, -⟩ := isIn_of_mem_findTemplates h ht
  have hturn := (isFramed_of_mem_findTemplates h ht).inTurn
  obtain ⟨i, hi⟩ := List.mem_iff_getElem?.1 hhole
  have hlt : i < t.holes.length := (List.getElem?_eq_some_iff.1 hi).1
  have hlength := hturn.length_eq
  obtain ⟨q, hq⟩ : ∃ q, t.quasis[i]? = some q := ⟨_, List.getElem?_eq_getElem (by omega)⟩
  obtain ⟨r, hr⟩ : ∃ r, t.quasis[i + 1]? = some r := ⟨_, List.getElem?_eq_getElem (by omega)⟩
  obtain ⟨hstart, hstop, -⟩ := hturn.getElem? hq hr hi
  obtain ⟨⟨hqstart, -⟩, hqle⟩ := hlaid.span_isIn (List.mem_of_getElem? hq)
  obtain ⟨⟨-, hrstop⟩, hrle⟩ := hlaid.span_isIn (List.mem_of_getElem? hr)
  rw [Tagged.content, contentSpan?_of_laid hlaid, Option.getD_some, Span.IsIn]
  simp only at hqstart hrstop ⊢
  omega

/-! ### The templates that are found -/

/-- How a template lies to one that is closed later, and is led. -/
def Tagged.ClosesLed (t r : Tagged) : Prop :=
  t.ClosesBefore r ∧ (t.IsInContentOf r → r.leadingComments <+: t.leadingComments)

/-- **The comments that lead a template are the first ones of those that lead a template in one of its
holes**, so a comment that leads a template leads all that are nested in it. -/
theorem leadingComments_isPrefix {source : Text} {ts : List Tagged}
    (h : findTemplates source = .ok ts) {t u : Tagged} (ht : t ∈ ts) (hu : u ∈ ts) {hole : Hole}
    (hhole : hole ∈ t.holes) (hin : u.span.IsIn hole.span) :
    t.leadingComments <+: u.leadingComments ∧
      ∀ text, t.hasLeadingComment text → u.hasLeadingComment text := by
  suffices hleads : t.leadingComments <+: u.leadingComments by
    refine ⟨hleads, fun text htext => ?_⟩
    obtain ⟨c, hc, htrim⟩ := List.any_eq_true.1 htext
    exact List.any_eq_true.2 ⟨c, hleads.subset hc, htrim⟩
  have hcontent := isIn_content_of_mem_holes h ht hhole
  have htp := (pairwise_of_findTemplates h).1 t ht
  have hup := (pairwise_of_findTemplates h).1 u hu
  have hinside : u.IsInContentOf t :=
    ⟨Nat.le_trans hcontent.1 hin.1, Nat.le_trans hin.2 hcontent.2⟩
  have hne : u ≠ t := by
    rintro rfl
    exact absurd hinside.1 (Nat.not_le.2 hup.start_lt)
  have := htp.start_lt
  have := htp.stop_eq
  have := hup.start_lt_stop
  have := hup.start_lt
  obtain ⟨n, hr, rfl⟩ := findTemplates_eq_ok_iff.1 h
  obtain ⟨o, hl, hn⟩ := readToEnd_induction (P := fun n o _ => n.Laminar o ∧ n.Led)
    (fun h hr => ⟨laminar_readLexeme h.1 hr, led_readLexeme h.1 h.2 hr⟩) ⟨.init, .init⟩ hr
  have hpairs : n.closed.Pairwise Tagged.ClosesLed := hl.closed.and hn.closed
  have hsymm : Std.Symm fun t r => Tagged.ClosesLed t r ∨ Tagged.ClosesLed r t :=
    ⟨fun _ _ => Or.symm⟩
  have hboth : n.closed.Pairwise fun t r => Tagged.ClosesLed t r ∨ Tagged.ClosesLed r t :=
    hpairs.imp Or.inl
  have hboth := hboth.forall (List.mem_mergeSort.1 hu) (List.mem_mergeSort.1 ht) hne
  rcases hboth with ⟨-, hleads⟩ | ⟨hbefore, -⟩
  · exact hleads hinside
  -- The outer template is not closed first, for it ends behind the inner one.
  · have := hinside.2
    simp only [Tagged.ClosesBefore, Tagged.IsInTagOf, Tagged.IsInContentOf] at hbefore hinside
    omega

/-- A template between brackets in a hole of another one, behind a comment of its own. -/
theorem leadingComments_isPrefix_brackets :
    let source : Text := "//off\na`$\x7b(()=>\x7b//b\nc`d`\x7d)\x7d`".toList
    let t : Tagged :=
      { tag := .identifier ['a'], span := ⟨6, 28⟩
        quasis := [⟨⟨8, 8⟩, ⟨2, 3⟩, ⟨2, 3⟩, []⟩, ⟨⟨27, 27⟩, ⟨3, 8⟩, ⟨3, 8⟩, []⟩]
        holes := [⟨⟨10, 26⟩, ⟨2, 5⟩⟩], leadingComments := ["off".toList] }
    let u : Tagged :=
      { tag := .identifier ['c'], span := ⟨20, 24⟩
        quasis := [⟨⟨22, 23⟩, ⟨3, 3⟩, ⟨3, 4⟩, ['d']⟩], holes := []
        leadingComments := ["off".toList, ['b']] }
    findTemplates source = .ok [t, u] ∧ t.leadingComments <+: u.leadingComments ∧
      ∀ text, t.hasLeadingComment text → u.hasLeadingComment text := by
  intro source t u
  have hts : findTemplates source = .ok [t, u] :=
    findTemplates_of_closed_pair (by decide +kernel) (by decide)
  have hhole : (⟨⟨10, 26⟩, ⟨2, 5⟩⟩ : Hole) ∈ t.holes := by simp [t]
  have hin : u.span.IsIn ⟨10, 26⟩ := by simp [u, Span.IsIn]
  exact ⟨hts, leadingComments_isPrefix hts (by simp) (by simp) hhole hin⟩

end StyleBlocks.Template
