import StyleBlocks.Proofs.Template.Laminar

/-!
# Templates in holes

A template between the backticks of another one, tag and all, stands in one of its holes: no chain
is carried into a hole or out of one. While the outer template is open, the templates closed since
its opening backtick stand in the holes it has so far or in the hole that is open; and where that
hole is closed, everything behind its start stands in it.

## Main results

* `housed_readLexeme`: reading a lexeme keeps the invariant.
* `pairwise_disjoint_or_isInHole`: of two templates that are found, the contents are disjoint or the
  later one stands in a hole.
-/

namespace StyleBlocks

/-- Two spans are **disjoint** if one ends in front of the other. -/
def Span.IsDisjoint (s t : Span) : Prop :=
  s.stop ≤ t.start ∨ t.stop ≤ s.start

namespace Template

/-- A template stands in one of some holes, tag and all. -/
def Tagged.IsInHole (hs : List Hole) (t : Tagged) : Prop :=
  ∃ h ∈ hs, t.span.IsIn h.span

/-- The templates that start behind the opening backtick of an open template stand in its holes. -/
def Unclosed.Houses (ts : List Tagged) (u : Unclosed) : Prop :=
  ∀ t ∈ ts, u.opening < t.span.start → t.IsInHole u.holes

/-- The **invariant of holes**: the templates closed so far stand in the holes of those around them,
or in a hole that is still open. -/
structure Nesting.Housed (n : Nesting) : Prop where
  holes : ∀ u s, .hole u s ∈ n.openers → ∀ t ∈ n.closed, u.opening < t.span.start →
    t.IsInHole u.holes ∨ s ≤ t.span.start
  closed : n.closed.Pairwise fun t r => t.IsInContentOf r → t.IsInHole r.holes

section

variable {o s stop : Nat} {os : List Opener} {ts : List Tagged} {t : Tagged} {u : Unclosed}
  {n n' : Nesting} {r : Reading} {rest : Text}

/-- Templates stay in their holes where no template is closed and no hole is opened. -/
theorem Nesting.Housed.keeps (h : n.Housed) (hn : n.Keeps n') : n'.Housed where
  holes u s hu := hn.2 ▸ h.holes u s (hn.mem_openers hu)
  closed := hn.2 ▸ h.closed

/-- Where a hole is closed, the templates that start in it stand in it. -/
theorem Unclosed.houses_addHole {h : Hole}
    (hu : ∀ t ∈ ts, u.opening < t.span.start → t.IsInHole u.holes ∨ h.span.start ≤ t.span.start)
    (hstop : ∀ t ∈ ts, t.span.stop ≤ h.span.stop) : (u.addHole h).Houses ts := by
  intro t ht hlt
  rcases hu t ht hlt with ⟨g, hg, hin⟩ | hle
  · exact ⟨g, List.mem_append_left _ hg, hin⟩
  · exact ⟨h, by simp [addHole], hle, hstop t ht⟩

/-- The content of a template starts behind its opening backtick. -/
theorem Unclosed.Fits.content_start (h : u.Fits os ts) (hne : u.quasis ≠ [])
    (ht : t ∈ u.close? stop) : t.content.start = u.opening + 1 := by
  obtain ⟨c, -, rfl⟩ := Option.map_eq_some_iff.1 ht
  obtain ⟨q, qs, hq⟩ := List.exists_cons_of_ne_nil hne
  have hstart := h.start q (by rw [hq]; rfl)
  simp [Tagged.content, Tagged.contentSpan?, hq, List.getLast?_cons, hstart]

/-- A template that is closed starts inside all open levels. -/
theorem Unclosed.Fits.inside_le (h : u.Fits os ts) (ht : t ∈ u.close? stop) {p : Opener}
    (hp : p ∈ os) : p.inside ≤ t.span.start := by
  obtain ⟨c, hc, rfl⟩ := Option.map_eq_some_iff.1 ht
  exact (h.tag c hc).2.inside p hp

/-! ### Steps -/

/-- A template that is closed houses what has been closed since it was opened. -/
theorem Nesting.Housed.closeTemplate (hn : n.Housed) (hu : u.Houses n.closed)
    (hfits : u.Fits n.openers n.closed) (hne : u.quasis ≠ []) : (n.closeTemplate u stop).Housed where
  holes v s hv t ht hlt := by
    rw [openers_closeTemplate] at hv
    rw [closed_closeTemplate, List.mem_append] at ht
    rcases ht with ht | ht
    · exact hn.holes v s hv t ht hlt
    · exact Or.inr (hfits.inside_le (Option.mem_toList.1 ht) hv)
  closed := by
    rw [closed_closeTemplate]
    refine List.pairwise_append.2 ⟨hn.closed, ?_, fun t ht r hr hin => ?_⟩
    · cases u.close? stop <;> simp
    · have hr := Option.mem_toList.1 hr
      have hstart := hfits.content_start hne hr
      have hhole := hu t ht (by rw [Nat.lt_iff_add_one_le, ← hstart]; exact hin.1)
      obtain ⟨c, -, rfl⟩ := Option.map_eq_some_iff.1 hr
      exact hhole

/-- **Reading a literal part keeps the invariant** if what has been closed stands in the holes of its
template. -/
theorem housed_readLiteral {lines : LineMap} (hn : n.Housed) (hu : u.Houses n.closed)
    (hfits : u.Fits n.openers n.closed) (hdue : u.quasis = [] → o = u.opening + 1)
    (h : readLiteral lines u ⟨n, o, rest⟩ = .ok r) : r.nesting.Housed := by
  obtain ⟨raw, rest, -, hend⟩ := readLiteral_cases h
  rcases hend with ⟨-, rfl⟩ | ⟨-, rfl⟩
  · exact hn.closeTemplate (u := u.addQuasi _) hu (hfits.concat hdue) (by simp [Unclosed.addQuasi])
  · refine ⟨fun v s hv t ht hlt => ?_, hn.closed⟩
    rw [Nesting.openers_openHole, List.mem_cons] at hv
    rcases hv with hv | hv
    · cases hv
      exact Or.inl (hu t ht hlt)
    · exact hn.holes v s hv t ht hlt

/-- **Reading a lexeme keeps the invariant.** -/
theorem housed_readLexeme {lines : LineMap} {c : Char} (hl : n.Laminar o) (hn : n.Housed)
    (h : readLexeme lines n o c rest = .ok r) : r.nesting.Housed := by
  rcases readLexeme_cases h with ⟨hkeeps, -⟩ | ⟨rfl, m, comments, ho, hc, h⟩ |
    ⟨rfl, m, u, s, ho, hc, h⟩
  · exact hn.keeps hkeeps
  · have hfits := hl.unclosed_fits comments
    rw [← ho, ← hc] at hfits
    refine housed_readLiteral (hn.keeps (.of_openers (ho ▸ List.Subset.refl _) hc)) ?_ hfits
      (fun _ => rfl) h
    intro t ht hlt
    obtain ⟨hproper, hstop⟩ := hl.proper t (hc ▸ ht)
    have := hproper.start_lt_stop
    exact absurd hlt (by simp only; omega)
  · have hlevels := hl.levels
    rw [ho] at hlevels
    obtain ⟨-, ⟨hu, hne, -⟩, -⟩ := hlevels
    refine housed_readLiteral (u := u.addHole _)
      (hn.keeps (.of_openers (ho ▸ List.subset_cons_self _ _) hc)) ?_ ?_ (fun h => absurd h hne) h
    · refine Unclosed.houses_addHole (fun t ht hlt => ?_) fun t ht => ?_
      · exact hn.holes u s (ho ▸ List.mem_cons_self) t (hc ▸ ht) hlt
      · exact (hl.proper t (hc ▸ ht)).2
    · exact hc ▸ ⟨hu.tag, hu.avoids, hu.start⟩

end

/-! ### The templates that are found -/

/-- Of two templates that lie to each other as they should, the later one stands in a hole of the
other if it lies in its content. -/
theorem Tagged.isInHole_of_isInContentOf {t r : Tagged} (ht : t.IsProper) (hr : r.IsProper)
    (h : t.ClosesBefore r ∧ (t.IsInContentOf r → t.IsInHole r.holes) ∨
      r.ClosesBefore t ∧ (r.IsInContentOf t → r.IsInHole t.holes))
    (hlt : t.span.start < r.span.start) (hin : r.IsInContentOf t) : r.IsInHole t.holes := by
  rcases h with ⟨hbefore, -⟩ | ⟨-, hhole⟩
  · have := ht.start_lt
    have := ht.stop_eq
    have := hr.start_lt_stop
    have := hr.start_lt
    simp only [ClosesBefore, IsInTagOf, IsInContentOf] at hbefore hin
    omega
  · exact hhole hin

/-- **Of two templates that are found** the one whose tag starts later has its content apart from that
of the other, or stands, tag and all, in one of the other's holes. -/
theorem pairwise_disjoint_or_isInHole {source : Text} {ts : List Tagged}
    (h : findTemplates source = .ok ts) :
    ts.Pairwise fun t u => t.span.start < u.span.start ∧
      ∃ c d, t.contentSpan? = some c ∧ u.contentSpan? = some d ∧
        (c.IsDisjoint d ∨ ∃ h ∈ t.holes, u.span.IsIn h.span) := by
  obtain ⟨hproper, hstarts⟩ := pairwise_of_findTemplates h
  obtain ⟨n, hr, rfl⟩ := findTemplates_eq_ok_iff.1 h
  obtain ⟨o, hl, hn⟩ := readToEnd_induction (P := fun n o _ => n.Laminar o ∧ n.Housed)
    (fun h hr => ⟨laminar_readLexeme h.1 hr, housed_readLexeme h.1 h.2 hr⟩)
    ⟨.init, by simp [Nesting.openers], by simp⟩ hr
  have hboth := (List.mergeSort_perm n.closed fun t u => t.span.start ≤ u.span.start).symm.pairwise
    ((hl.closed.and hn.closed).imp Or.inl) Or.symm
  refine (hboth.and hstarts).imp_of_mem fun {t u} ht hu hlies => ?_
  obtain ⟨hlie, hlt, hstart⟩ := hlies
  have htp := hproper t ht
  have hup := hproper u hu
  refine ⟨hlt, t.content, u.content, htp.contentSpan?_eq, hup.contentSpan?_eq, ?_⟩
  by_cases hin : u.IsInContentOf t
  · exact Or.inr (Tagged.isInHole_of_isInContentOf htp hup hlie hlt hin)
  · have := htp.stop_eq
    have := hup.start_lt
    have := hup.stop_eq
    simp only [Tagged.IsInTagOf, hin, or_false] at hstart
    simp only [Span.IsDisjoint]
    omega

/-- A template in a hole of another one, whose tag is a call with an argument. -/
theorem pairwise_disjoint_or_isInHole_call :
    let source : Text := "css`a$\x7bb(x)`c`\x7d`".toList
    let t : Tagged :=
      { tag := .identifier "css".toList, span := ⟨0, 16⟩
        quasis := [⟨⟨4, 5⟩, ⟨1, 5⟩, ⟨1, 6⟩, ['a']⟩, ⟨⟨15, 15⟩, ⟨1, 16⟩, ⟨1, 16⟩, []⟩]
        holes := [⟨⟨7, 14⟩, ⟨1, 8⟩⟩], leadingComments := [] }
    let u : Tagged :=
      { tag := .call (.identifier ['b']), span := ⟨7, 14⟩
        quasis := [⟨⟨12, 13⟩, ⟨1, 13⟩, ⟨1, 14⟩, ['c']⟩], holes := [], leadingComments := [] }
    findTemplates source = .ok [t, u] ∧
      [t, u].Pairwise fun t u => t.span.start < u.span.start ∧
        ∃ c d, t.contentSpan? = some c ∧ u.contentSpan? = some d ∧
          (c.IsDisjoint d ∨ ∃ h ∈ t.holes, u.span.IsIn h.span) := by
  intro source t u
  have hts : findTemplates source = .ok [t, u] :=
    findTemplates_of_closed_pair (by decide +kernel) (by decide)
  exact ⟨hts, pairwise_disjoint_or_isInHole hts⟩

end Template

end StyleBlocks
