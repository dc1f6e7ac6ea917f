import StyleBlocks.Proofs.Template.Alike
import StyleBlocks.Proofs.Template.NextStatement
import StyleBlocks.Proofs.Template.ReadBack

/-!
# Templates that are complete

A template is **complete** if reading comes from its opening backtick to its closing one. Until then
the levels below the template stay as they are, and the template itself keeps its tag from hole to
hole, whatever stands in the holes. So it makes no difference what is around a complete template: it
is complete in the middle of other code too, and it is closed with the chain in front of it as its
tag.

## Main results

* `openers_of_readLexeme`: a level stays with what is below it until it is closed.
* `Reading.Completes.exists_alike`: reading completes a template alike wherever it stands.
* `exists_tagged_of_completes`: the tag of a template that is completed.
* `le_offset_of_readToEnd_error`: an error is about a template that opens behind the place where
  reading began.
-/

namespace StyleBlocks.Template

section

variable {lines lines' : LineMap} {n m : Nesting} {o stop : Nat} {c : Char} {t : Text}
  {r r' s : Reading} {p : Opener} {os base : List Opener} {u : Unclosed} {chain : Chain}

/-! ### Levels that stay open -/

/-- A literal part opens a hole or none, above what is open. -/
theorem openers_of_readLiteral (h : readLiteral lines u ⟨n, o, t⟩ = .ok r) :
    (r.nesting.openers = n.openers ∧ ∃ v : Unclosed,
        v.chain = u.chain ∧ r.nesting.closed = n.closed ++ (v.close? r.offset).toList) ∨
      ∃ (v : Unclosed) (s : Nat), v.chain = u.chain ∧
        r.nesting.openers = .hole v s :: n.openers ∧ r.nesting.closed = n.closed := by
  obtain ⟨raw, rest, -, ⟨-, rfl⟩ | ⟨-, rfl⟩⟩ := readLiteral_cases h
  · exact Or.inl ⟨Nesting.openers_closeTemplate _ _ n, u.addQuasi (.ofRaw lines o raw), rfl,
      Nesting.closed_closeTemplate _ _ n⟩
  · exact Or.inr ⟨u.addQuasi (.ofRaw lines o raw), o + Text.byteSize raw + 2, rfl, rfl, rfl⟩

/-- **A level stays open with what is below it**, as a hole of a template with the same tag if it is
a hole, or a lexeme closes it. With its last hole a template is closed. -/
theorem openers_of_readLexeme (h : readLexeme lines n o c t = .ok r)
    (hn : n.openers = os ++ p :: base) :
    (∃ os' p', r.nesting.openers = os' ++ p' :: base ∧
        ∀ u s, p = .hole u s → ∃ v s', p' = .hole v s' ∧ v.chain = u.chain) ∨
      (r.nesting.openers = base ∧ ∀ u s, p = .hole u s → ∃ v : Unclosed,
        v.chain = u.chain ∧ r.nesting.closed = n.closed ++ (v.close? r.offset).toList) := by
  have hstays : ∀ os', r.nesting.openers = os' ++ p :: base →
      ∃ os' p', r.nesting.openers = os' ++ p' :: base ∧
        ∀ u s, p = .hole u s → ∃ v s', p' = .hole v s' ∧ v.chain = u.chain :=
    fun os' hos' => ⟨os', p, hos', fun u s hp => ⟨u, s, hp, rfl⟩⟩
  cases Nesting.levelStep_of_readLexeme h with
  | within hm =>
      refine Or.inl (hstays os ?_)
      rw [hm.openers_eq, Nesting.openers_modifyStatement, hn]
  | @opening k q hk hopens hq hm =>
      refine Or.inl (hstays (q :: os) ?_)
      rw [hm.openers_eq, List.cons_append, ← hn,
        ← Nesting.openers_modifyStatement (Statement.meet k) n]
      rfl
  | @closing k l ls hk hcloses hl hopener hm =>
      have hls : r.nesting.openers = ls.map Level.opener := by
        rw [hm.openers_eq, Nesting.openers_modifyStatement]
        rfl
      rw [Nesting.openers, hl, List.map_cons] at hn
      cases os with
      | nil =>
          obtain ⟨rfl, hbase⟩ := List.cons.inj hn
          exact Or.inr ⟨hls.trans hbase, fun u s hu => absurd hu (hopener u s)⟩
      | cons q os => exact Or.inl (hstays os (hls.trans (List.cons.inj hn).2))
  | @template m hc hm hread =>
      have hopeners : m.openers = os ++ p :: base := by
        rw [hm.openers_eq, Nesting.openers_modifyStatement, hn]
      rcases openers_of_readLiteral hread with ⟨hr, -⟩ | ⟨v, s, -, hr, -⟩
      · exact Or.inl (hstays os (hr.trans hopeners))
      · exact Or.inl (hstays (.hole v s :: os) (by rw [hr, hopeners, List.cons_append]))
  | @hole m u s st ls hc hl hm hread =>
      have hopeners : m.openers = ls.map Level.opener := hm.openers_eq
      rw [Nesting.openers, hl, List.map_cons] at hn
      cases os with
      | nil =>
          obtain ⟨rfl, hbase⟩ := List.cons.inj hn
          rcases openers_of_readLiteral hread with ⟨hr, v, hv, hclosed⟩ | ⟨v, s', hv, hr, -⟩
          · refine Or.inr ⟨hr.trans (hopeners.trans hbase), fun u' s' hu => ?_⟩
            cases hu
            exact ⟨v, hv, by rw [hclosed, hm.closed]⟩
          · refine Or.inl ⟨[], .hole v s', by rw [hr, hopeners, hbase, List.nil_append], ?_⟩
            intro u' s'' hu
            cases hu
            exact ⟨v, s', rfl, hv⟩
      | cons q os =>
          have hls : m.openers = os ++ p :: base := hopeners.trans (List.cons.inj hn).2
          rcases openers_of_readLiteral hread with ⟨hr, -⟩ | ⟨v, s', -, hr, -⟩
          · exact Or.inl (hstays os (hr.trans hls))
          · exact Or.inl (hstays (.hole v s' :: os) (by rw [hr, hls, List.cons_append]))

/-! ### Reading up to the end of a template -/

/-- Reading **completes** what is open above `depth` levels: it goes on until these levels are left.
-/
inductive Reading.Completes (lines : LineMap) (depth : Nat) : Reading → Reading → Prop
  | done {r : Reading} (complete : r.nesting.openers.length = depth) : Completes lines depth r r
  | step {n : Nesting} {o : Nat} {c : Char} {t : Text} {r s : Reading}
      (deep : depth < n.openers.length) (read : readLexeme lines n o c t = .ok r)
      (rest : Completes lines depth r s) : Completes lines depth ⟨n, o, c :: t⟩ s

/-- A **complete template**: behind its backtick, reading code that starts there comes over `t` to
the closing backtick, in front of `rest`. -/
def CompleteTemplate (t rest : Text) : Prop :=
  ∃ (lines : LineMap) (r s : Reading),
    readLexeme lines {} 0 '\x60' t = .ok r ∧ r.Completes lines 0 s ∧ s.rest = rest

/-- A reading that completes what is open reaches its end. -/
theorem Reading.Completes.reaches {depth : Nat} (h : r.Completes lines depth s) :
    r.Reaches lines s := by
  induction h with
  | done => exact .refl
  | step _ hread _ ih => exact (Reading.Reaches.of_read hread).trans ih

/-- Where nothing is open above its depth, reading has completed. -/
theorem Reading.Completes.eq_of_length {depth : Nat} (h : r.Completes lines depth s)
    (hr : r.nesting.openers.length = depth) : s = r := by
  cases h with
  | done => rfl
  | step hdeep => exact absurd hr (Nat.ne_of_gt hdeep)

/-- **Reading completes a template alike** wherever it stands. -/
theorem Reading.Completes.exists_alike {depth : Nat} (h : r.Completes lines depth s)
    (hr : r.Alike base r') (lines' : LineMap) :
    ∃ s', r'.Completes lines' (depth + base.length) s' ∧ s.Alike base s' := by
  have hlength : ∀ {n m : Nesting}, n.OpenAlike base m →
      m.openers.length = n.openers.length + base.length := by
    rintro n m ⟨os, hos, hmap⟩
    have := congrArg List.length hmap
    simp only [List.length_map] at this
    rw [hos, List.length_append, this]
  induction h generalizing r' with
  | done hcomplete =>
      exact ⟨r', .done (by rw [hlength hr.nesting.openers, hcomplete]), hr⟩
  | @step n o c t r s hdeep hread _ ih =>
      obtain ⟨m, o', t'⟩ := r'
      obtain ⟨hm, rfl⟩ := hr
      have hm : n.Alike base m := hm
      have hne : n.openers ≠ [] := List.ne_nil_of_length_pos (Nat.zero_lt_of_lt hdeep)
      obtain ⟨r', hread', hr'⟩ := Reading.Alike.exists_readLexeme hm (fun _ _ _ => hne) hread
      obtain ⟨s', hs', halike⟩ := ih hr'
      exact ⟨s', .step (by rw [hlength hm.openers]; omega) hread' hs', halike⟩

/-- The levels below are as they were when reading has completed what is above. -/
theorem Reading.Completes.openers_eq {depth : Nat} (h : r.Completes lines depth s)
    (hr : r.nesting.openers = os ++ base) (hdepth : base.length = depth) :
    s.nesting.openers = base := by
  induction h generalizing os with
  | done hcomplete =>
      rw [hr, List.length_append] at hcomplete
      obtain rfl : os = [] := List.eq_nil_of_length_eq_zero (by omega)
      exact hr
  | @step n o c t r s hdeep hread _ ih =>
      -- Before it has completed, reading stands in a level above those below.
      have hne : os ≠ [] := by
        rintro rfl
        rw [show n.openers = base from hr] at hdeep
        omega
      obtain ⟨os, p, rfl⟩ : ∃ os' p, os = os' ++ [p] :=
        ⟨_, _, (List.dropLast_concat_getLast hne).symm⟩
      have hn : n.openers = os ++ p :: base := by simpa using hr
      rcases openers_of_readLexeme hread hn with ⟨os', p', hos', -⟩ | ⟨hbase, -⟩
      · exact ih (show r.nesting.openers = (os' ++ [p']) ++ base by simpa using hos')
      · exact ih (show r.nesting.openers = [] ++ base from hbase)

/-- A template with a tag is among what has been closed when it is. -/
theorem exists_tagged_of_close? {ts : List Tagged} (hu : u.chain = some chain)
    (hs : s.nesting.closed = ts ++ (u.close? s.offset).toList) :
    ∃ found ∈ s.nesting.closed, found.tag = chain.tag ∧ found.span = ⟨chain.start, s.offset⟩ := by
  rw [hs, Unclosed.close?_of_chain hu]
  exact ⟨_, List.mem_append_right _ (List.mem_singleton_self _), rfl, rfl⟩

/-- A template that is completed hole by hole is closed with its tag. -/
theorem Reading.Completes.exists_tagged (h : r.Completes lines base.length s) {start : Nat}
    (hr : r.nesting.openers = os ++ .hole u start :: base) (hu : u.chain = some chain) :
    ∃ found ∈ s.nesting.closed, found.tag = chain.tag ∧ found.span = ⟨chain.start, s.offset⟩ := by
  generalize hdepth : base.length = depth at h
  induction h generalizing os u start with
  | done hcomplete =>
      rw [hr] at hcomplete
      simp only [List.length_append, List.length_cons] at hcomplete
      omega
  | @step n o c t r s hdeep hread hrest ih =>
      -- A lexeme leaves the hole open, puts the next hole in its place, or closes the template.
      rcases openers_of_readLexeme hread hr with ⟨os', p', hos', hp'⟩ | ⟨hbase, hclosed⟩
      · obtain ⟨v, start', rfl, hv⟩ := hp' u start rfl
        exact ih hos' (hv.trans hu)
      · obtain ⟨v, hv, hclosed⟩ := hclosed u start rfl
        obtain rfl := hrest.eq_of_length (by rw [hbase, hdepth])
        exact exists_tagged_of_close? (hv.trans hu) hclosed

/-- **The tag of a template that is completed** is the chain in front of its backtick. -/
theorem exists_tagged_of_completes (hread : readLexeme lines n o '\x60' t = .ok r)
    (h : r.Completes lines n.openers.length s) (hchain : n.chain = some chain) :
    ∃ found ∈ s.nesting.closed, found.tag = chain.tag ∧ found.span = ⟨chain.start, s.offset⟩ := by
  obtain ⟨m, comments, hm, -, hopen⟩ := readLexeme_backtick lines n o t
  rw [hopen, hchain] at hread
  rw [← hm] at h
  rcases openers_of_readLiteral hread with ⟨hr, v, hv, hclosed⟩ | ⟨v, start, hv, hr, -⟩
  · obtain rfl := h.eq_of_length (by rw [hr])
    exact exists_tagged_of_close? hv hclosed
  · exact h.exists_tagged (show r.nesting.openers = [] ++ .hole v start :: m.openers from hr) hv

/-! ### Reading the rest of the code -/

/-- Reading to the end from a place leads where it leads from any place that is reached from
there. -/
theorem readToEnd_of_reaches (h : r.Reaches lines s) : r.toEnd lines = s.toEnd lines := by
  induction h with
  | refl => rfl
  | step _ hread ih => exact ih.trans (readToEnd_of_readLexeme hread)

/-- What has been closed stays so. -/
theorem closed_subset_of_readLexeme (h : readLexeme lines n o c t = .ok r) :
    n.closed ⊆ r.nesting.closed := by
  rcases readLexeme_cases h with ⟨hkeeps, -⟩ | ⟨-, m, comments, -, hclosed, hliteral⟩ |
    ⟨-, m, u, s, -, hclosed, hliteral⟩
  · rw [hkeeps.2]
    exact List.Subset.refl _
  all_goals
    rw [← hclosed]
    rcases openers_of_readLiteral hliteral with ⟨-, v, -, hr⟩ | ⟨v, s, -, -, hr⟩
    · rw [hr]
      exact List.subset_append_left _ _
    · rw [hr]
      exact List.Subset.refl _

/-- Reading to the end keeps the templates that have been closed. -/
theorem closed_subset_of_readToEnd (h : readToEnd lines n o t = .ok m) : n.closed ⊆ m.closed := by
  obtain ⟨_, hsubset⟩ := readToEnd_induction (P := fun m _ _ => n.closed ⊆ m.closed)
    (fun hn hread => List.Subset.trans hn (closed_subset_of_readLexeme hread)) (List.Subset.refl _) h
  exact hsubset

/-- All that is open, and the place that reading has come to, are not in front of `stop`. -/
structure Reading.IsBehind (stop : Nat) (r : Reading) : Prop where
  offset : stop ≤ r.offset
  holes : ∀ u s, .hole u s ∈ r.nesting.openers → stop ≤ u.opening

/-- A literal part that is read behind a place leaves all that is open behind it. -/
theorem isBehind_readLiteral (ho : stop ≤ o) (hu : stop ≤ u.opening)
    (hn : ∀ u s, .hole u s ∈ n.openers → stop ≤ u.opening)
    (h : readLiteral lines u ⟨n, o, t⟩ = .ok r) : r.IsBehind stop := by
  obtain ⟨raw, rest, -, ⟨-, rfl⟩ | ⟨-, rfl⟩⟩ := readLiteral_cases h
  · refine ⟨by dsimp only; omega, ?_⟩
    rw [Nesting.openers_closeTemplate]
    exact hn
  · refine ⟨by dsimp only; omega, fun v s hv => ?_⟩
    rw [Nesting.openers_openHole] at hv
    rcases List.mem_cons.1 hv with hv | hv
    · cases hv
      exact hu
    · exact hn v s hv

/-- Every lexeme opens templates at its own place only. -/
theorem isBehind_readLexeme (h : Reading.IsBehind stop ⟨n, o, c :: t⟩)
    (hread : readLexeme lines n o c t = .ok r) : r.IsBehind stop := by
  obtain ⟨ho, hn⟩ := h
  rcases readLexeme_cases hread with ⟨hkeeps, done, -, hoffset⟩ |
    ⟨-, m, comments, hm, -, hliteral⟩ | ⟨-, m, u, s, hm, -, hliteral⟩
  · refine ⟨?_, fun u s hu => hn u s (hkeeps.mem_openers hu)⟩
    rw [hoffset]
    exact Nat.le_add_right_of_le ho
  · exact isBehind_readLiteral (Nat.le_succ_of_le ho) ho (hm ▸ hn) hliteral
  · have hu : stop ≤ u.opening := hn u s (by simp [hm])
    refine isBehind_readLiteral (u := u.addHole _) (Nat.le_succ_of_le ho) hu (fun v s hv => ?_)
      hliteral
    exact hn v s (by simp [hm, hv])

/-- The one error in a literal part is that the template does not close. -/
theorem eq_of_readLiteral_error {e : ScanError} (h : readLiteral lines u r = .error e) :
    e = .unterminated u.opening (lines.position u.opening) := by
  rw [readLiteral] at h
  split at h
  · exact (Except.error.inj h).symm
  · split at h <;> contradiction

/-- **A lexeme is an error** only about the template that it opens or goes on with. -/
theorem exists_opening_of_readLexeme_error {e : ScanError}
    (h : readLexeme lines n o c t = .error e) :
    ∃ opening, e = .unterminated opening (lines.position opening) ∧
      (opening = o ∨ ∃ u s, .hole u s ∈ n.openers ∧ opening = u.opening) := by
  simp only [readLexeme] at h
  split at h
  case h_6 =>
    simp only [readCode] at h
    split at h
    case h_10 =>
      split at h
      · next u s st ls hl =>
          refine ⟨u.opening, eq_of_readLiteral_error (u := u.addHole _) h, Or.inr ⟨u, s, ?_, rfl⟩⟩
          rw [← Nesting.openers_modifyStatement (Statement.meet .closeBrace), Nesting.openers, hl]
          exact List.mem_cons_self
      · contradiction
    case h_11 => exact ⟨o, eq_of_readLiteral_error h, Or.inl rfl⟩
    case h_13 => split at h <;> contradiction
    all_goals contradiction
  all_goals contradiction

/-- **An error is about a template that opens behind** the place where reading began, if everything
that was open there did. -/
theorem le_offset_of_readToEnd_error {n : Nesting} {o opening : Nat} {t : Text}
    {position : Position} (h : Reading.IsBehind stop ⟨n, o, t⟩)
    (herror : readToEnd lines n o t = .error (.unterminated opening position)) :
    stop ≤ opening := by
  match t with
  | [] =>
      rw [readToEnd] at herror
      split at herror
      · next u hu =>
          obtain ⟨rfl, -⟩ := ScanError.unterminated.inj (Except.error.inj herror)
          obtain ⟨l, hl, hopener⟩ := List.exists_of_findSome?_eq_some hu
          split at hopener
          · next v s hv =>
              obtain rfl := Option.some.inj hopener
              exact h.holes v s (List.mem_map.2 ⟨l, hl, hv⟩)
          · contradiction
      · contradiction
  | c :: t =>
      rw [readToEnd_cons] at herror
      cases hr : readLexeme lines n o c t with
      | error e =>
          obtain ⟨o', rfl, hopening⟩ := exists_opening_of_readLexeme_error hr
          obtain ⟨rfl, -⟩ : o' = opening ∧ lines.position o' = position := by
            simpa [hr, Except.bind] using herror
          rcases hopening with rfl | ⟨u, s, hu, rfl⟩
          · exact h.offset
          · exact h.holes u s hu
      | ok r =>
          have hlt := length_rest_readLexeme_lt hr
          simp only [hr, Except.bind] at herror
          exact le_offset_of_readToEnd_error (isBehind_readLexeme h hr) herror
termination_by t.length
decreasing_by exact hlt

end

end StyleBlocks.Template
