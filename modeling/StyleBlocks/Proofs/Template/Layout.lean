import StyleBlocks.Proofs.Location.Advance
import StyleBlocks.Proofs.Template.RawText
import StyleBlocks.Template.Scan

/-!
# Where the parts of a template stand

The literal parts of a template and the holes between them lie in the source one behind the other,
and every part knows its bytes and its positions. `Laid` says this of parts and the texts of the
holes between them; while a template is read, one more part goes to the end.

## Main results

* `Laid.concat`: one more part behind a hole.
-/

namespace StyleBlocks.Template

/-! ### Parts and holes -/

/-- The literal part stands behind the text `front` of a source with the given lines. -/
structure Quasi.StandsBehind (lines : LineMap) (front : Text) (q : Quasi) : Prop where
  span : q.span = ⟨Text.byteSize front, Text.byteSize (front ++ q.raw)⟩
  start : q.start = lines.position (Text.byteSize front)
  stop : q.stop = lines.position (Text.byteSize (front ++ q.raw))
  raw : RawText.IsRaw q.raw

/-- The text of a hole, its delimiters included. -/
def IsHole (g : Text) : Prop :=
  ∃ e, g = '$' :: '{' :: (e ++ ['}'])

/-- The delimiters of a hole take three bytes. -/
theorem byteSize_hole (e : Text) :
    Text.byteSize ('$' :: '{' :: (e ++ ['}'])) = Text.byteSize e + 3 := by
  simp
  omega

/-- What stands between the delimiters of a hole. -/
theorem slice?_hole (f e b : Text) :
    Text.slice? (Text.byteSize f + 2) (Text.byteSize f + 2 + Text.byteSize e)
      (f ++ '$' :: '{' :: (e ++ ['}']) ++ b) = some e := by
  have hopen : Text.byteSize ['$', '{'] = 2 := rfl
  have hslice := Text.slice?_append (f ++ ['$', '{']) e ('}' :: b)
  rw [Text.byteSize_append _ e, Text.byteSize_append f, hopen] at hslice
  simpa using hslice

/-- Literal parts with the texts of the holes between them. -/
def weave : List Quasi → List Text → Text
  | q :: qs, g :: gs => q.raw ++ g ++ weave qs gs
  | qs, _ => qs.flatMap Quasi.raw

/-- Literal parts are **laid** behind the text `front` of a source, with holes of the given texts
between them. -/
def Laid (lines : LineMap) : Text → List Quasi → List Text → Prop
  | front, [q], [] => q.StandsBehind lines front
  | front, q :: r :: qs, g :: gs =>
    q.StandsBehind lines front ∧ IsHole g ∧ Laid lines (front ++ q.raw ++ g) (r :: qs) gs
  | _, _, _ => False

/-- The first part stands where the parts are laid. -/
theorem Laid.head {lines : LineMap} {front : Text} {q : Quasi} {qs : List Quasi} {gs : List Text}
    (h : Laid lines front (q :: qs) gs) : q.StandsBehind lines front := by
  cases qs with
  | nil =>
      cases gs with
      | nil => exact h
      | cons g gs => exact h.elim
  | cons r qs =>
      cases gs with
      | nil => exact h.elim
      | cons g gs => exact h.1

/-- Every part is raw text. -/
theorem Laid.isRaw {lines : LineMap} {front : Text} {qs : List Quasi} {gs : List Text}
    (h : Laid lines front qs gs) : ∀ q ∈ qs, RawText.IsRaw q.raw := by
  fun_induction Laid lines front qs gs with
  | case1 front q => simpa using Quasi.StandsBehind.raw h
  | case2 front q r qs g gs ih => exact List.forall_mem_cons.2 ⟨h.1.raw, ih h.2.2⟩
  | case3 => exact h.elim

/-- Everything between parts is a hole. -/
theorem Laid.isHole {lines : LineMap} {front : Text} {qs : List Quasi} {gs : List Text}
    (h : Laid lines front qs gs) : ∀ g ∈ gs, IsHole g := by
  fun_induction Laid lines front qs gs with
  | case1 front q => simp
  | case2 front q r qs g gs ih => exact List.forall_mem_cons.2 ⟨h.2.1, ih h.2.2⟩
  | case3 => exact h.elim

/-- The last part ends where the parts end. -/
theorem Laid.exists_getLast {lines : LineMap} {front : Text} {qs : List Quasi} {gs : List Text}
    (h : Laid lines front qs gs) :
    ∃ q, qs.getLast? = some q ∧ q.span.stop = Text.byteSize (front ++ weave qs gs) := by
  fun_induction Laid lines front qs gs with
  | case1 front q => exact ⟨q, rfl, by rw [Quasi.StandsBehind.span h]; simp [weave]⟩
  | case2 front q r qs g gs ih =>
      obtain ⟨last, hlast, hstop⟩ := ih h.2.2
      exact ⟨last, by rw [List.getLast?_cons_cons, hlast], by rw [hstop]; simp [weave]⟩
  | case3 => exact h.elim

/-- Parts that are laid are some parts. -/
theorem Laid.exists_head {lines : LineMap} {front : Text} {qs : List Quasi} {gs : List Text}
    (h : Laid lines front qs gs) : ∃ q, qs.head? = some q ∧ q.StandsBehind lines front := by
  match qs, gs with
  | [q], [] => exact ⟨q, rfl, h⟩
  | q :: r :: qs, g :: gs => exact ⟨q, rfl, h.1⟩

/-- A template that is laid in a source knows the bytes of its content. -/
theorem contentSpan?_of_laid {t : Tagged} {lines : LineMap} {front : Text} {gs : List Text}
    (h : Laid lines front t.quasis gs) : t.contentSpan? =
      some ⟨Text.byteSize front, Text.byteSize (front ++ weave t.quasis gs)⟩ := by
  obtain ⟨first, hfirst, hstart⟩ := h.exists_head
  obtain ⟨last, hlast, hstop⟩ := h.exists_getLast
  simp [Tagged.contentSpan?, hfirst, hlast, hstop, hstart.span]

/-- Every hole takes bytes, so there are no more parts than bytes, and one. -/
theorem Laid.length_le {lines : LineMap} {front : Text} {qs : List Quasi} {gs : List Text}
    (h : Laid lines front qs gs) : qs.length ≤ Text.byteSize (weave qs gs) + 1 := by
  fun_induction Laid lines front qs gs with
  | case1 => simp
  | case2 front q r qs g gs ih =>
      obtain ⟨-, ⟨e, rfl⟩, hrest⟩ := h
      have hrest := ih hrest
      have := Char.utf8Size_pos '$'
      simp only [weave, List.length_cons, Text.byteSize_append, Text.byteSize_cons] at hrest ⊢
      omega
  | case3 => exact h.elim

/-- **One more part** stands behind a hole that stands behind parts. -/
theorem Laid.concat {lines : LineMap} {front g : Text} {qs : List Quasi} {gs : List Text}
    {q : Quasi}
    (h : Laid lines front qs gs) (hg : IsHole g)
    (hq : q.StandsBehind lines (front ++ weave qs gs ++ g)) :
    Laid lines front (qs ++ [q]) (gs ++ [g]) ∧
      weave (qs ++ [q]) (gs ++ [g]) = weave qs gs ++ g ++ q.raw := by
  fun_induction Laid lines front qs gs with
  | case1 front p =>
      exact ⟨⟨h, hg, by simpa [weave, Laid] using hq⟩, by simp [weave]⟩
  | case2 front p r qs e gs ih =>
      obtain ⟨hp, he, hrest⟩ := h
      obtain ⟨hlaid, hweave⟩ := ih hrest (by simpa [weave] using hq)
      refine ⟨⟨hp, he, hlaid⟩, ?_⟩
      simp only [List.cons_append] at hweave
      simp [weave, hweave]
  | case3 => exact h.elim

end StyleBlocks.Template
