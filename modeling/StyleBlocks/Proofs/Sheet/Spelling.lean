import StyleBlocks.Proofs.Sheet.Rendering
import StyleBlocks.Proofs.Sheet.TokenForm
import StyleBlocks.Proofs.Text.Indent

/-!
# Fragments that spell tokens

Fragments **spell** tokens if the tokens can be put into groups, one for each fragment, such that
every fragment is the text of its group, indented by the fronts of the lines it reaches. No token is
cut, and every line that begins within a group gets its front once; the line that begins in front of
the first group gets it as the lead of the first fragment.

## Main results

* `Spells.append`: what spells tokens and what spells the tokens after them spells both.
* `Spells.texts_eq`: fragments put together are the indented text of the tokens.
* `spells_emit`: a fragment with the indented text of tokens spells them.
-/

namespace StyleBlocks.Sheet

open Token (texts)

/-- Fragments of two lists put together. -/
theorem Fragment.texts_append (fs gs : List Fragment) :
    Fragment.texts (fs ++ gs) = Fragment.texts fs ++ Fragment.texts gs := by
  simp [Fragment.texts]

/-- A fragment that is left out if it has no text. -/
theorem Fragment.texts_emit (o : Owner) (t : Text) : Fragment.texts (Printer.emit o t) = t := by
  rw [Printer.emit]
  split
  · next h => simp [Fragment.texts, List.isEmpty_iff.1 h]
  · simp [Fragment.texts]

/-- The line on which the first token behind some tokens begins. -/
def lineAfter (done : List Token) : Nat :=
  (texts done).breaks + 1

/-- The texts of groups of tokens of which the first begins on a line, indented by fronts; `lead`
stands in front of the first. -/
def spell (front : Nat → Text) (lead : Text) (line : Nat) : List (List Token) → List Text
  | [] => []
  | g :: gs =>
    (lead ++ Text.indentFrom front line (texts g)) ::
      spell front [] (line + (texts g).breaks) gs

/-- Fragments that stand behind the tokens `done` and **spell** the tokens `ts`, with `lead` in
front. -/
def Spells (front : Nat → Text) (lead : Text) (done ts : List Token) (fs : List Fragment) : Prop :=
  ∃ gs : List (List Token), gs.flatten = ts ∧
    fs.map Fragment.text = spell front lead (lineAfter done) gs ∧ (gs = [] → lead = [])

section

variable {front : Nat → Text} {lead : Text} {done ts us : List Token} {fs fs' : List Fragment}

/-- Tokens move the line on by the line breaks in them. -/
@[simp] theorem lineAfter_append (done ts : List Token) :
    lineAfter (done ++ ts) = lineAfter done + (texts ts).breaks := by
  simp only [lineAfter, Token.texts_append, Text.breaks_append]
  omega

/-- Groups of tokens are spelled group by group, the later ones from the line on to which the
others lead. -/
theorem spell_append {line : Nat} {gs hs : List (List Token)} (h : gs = [] → lead = []) :
    spell front lead line (gs ++ hs) =
      spell front lead line gs ++ spell front [] (line + (texts gs.flatten).breaks) hs := by
  induction gs generalizing lead line with
  | nil => simp [h rfl, spell]
  | cons g gs ih => simp [spell, ih, Nat.add_assoc]

/-- What groups of tokens are spelled as is their text, indented, behind what stands in front of
it. -/
theorem flatten_spell {line : Nat} {gs : List (List Token)} (h : gs = [] → lead = []) :
    (spell front lead line gs).flatten = lead ++ Text.indentFrom front line (texts gs.flatten) := by
  induction gs generalizing lead line with
  | nil => simp [h rfl, spell]
  | cons g gs ih => simp [spell, ih, Text.indentFrom_append]

/-- No fragments spell no tokens. -/
theorem Spells.nil : Spells front [] done [] [] :=
  ⟨[], rfl, rfl, fun _ => rfl⟩

/-- **Spelling goes on**: fragments for tokens, and fragments for the tokens behind them. -/
theorem Spells.append (h : Spells front lead done ts fs)
    (h' : Spells front [] (done ++ ts) us fs') : Spells front lead done (ts ++ us) (fs ++ fs') := by
  obtain ⟨gs, rfl, hfs, hlead⟩ := h
  obtain ⟨hs, rfl, hfs', -⟩ := h'
  refine ⟨gs ++ hs, by simp, ?_, fun hnil => hlead (List.append_eq_nil_iff.1 hnil).1⟩
  rw [List.map_append, hfs, hfs', spell_append hlead, lineAfter_append]

/-- One fragment, and fragments for the tokens behind it. -/
theorem Spells.cons {f : Fragment} (h : Spells front lead done ts [f])
    (h' : Spells front [] (done ++ ts) us fs) : Spells front lead done (ts ++ us) (f :: fs) :=
  h.append h'

/-- Fragments put together are the indented text of the tokens they spell. -/
theorem Spells.texts_eq (h : Spells front lead done ts fs) :
    Fragment.texts fs = lead ++ Text.indentFrom front (lineAfter done) (texts ts) := by
  obtain ⟨gs, rfl, hfs, hlead⟩ := h
  rw [Fragment.texts, List.flatMap_def, hfs, flatten_spell hlead]

/-- One fragment spells one group. -/
theorem Spells.single {f : Fragment}
    (h : f.text = lead ++ Text.indentFrom front (lineAfter done) (texts ts)) :
    Spells front lead done ts [f] :=
  ⟨[ts], by simp, by simp [spell, h], fun hnil => absurd hnil (by simp)⟩

/-- A fragment that is left out if it has no text spells one group too. -/
theorem spells_emit {o : Owner} {t : Text} (hne : ∀ k ∈ ts, k.text ≠ [])
    (h : t = lead ++ Text.indentFrom front (lineAfter done) (texts ts)) :
    Spells front lead done ts (Printer.emit o t) := by
  rw [Printer.emit]
  split
  · next ht =>
      rw [List.isEmpty_iff] at ht
      rw [ht, eq_comm, List.append_eq_nil_iff] at h
      obtain ⟨rfl, h⟩ := h
      cases ts with
      | nil => exact Spells.nil
      | cons k ts =>
          have hk := hne k List.mem_cons_self
          rw [Token.texts_cons, Text.indentFrom_append, List.append_eq_nil_iff] at h
          obtain ⟨c, u, hcu⟩ := List.exists_cons_of_ne_nil hk
          by_cases hc : c = '\n'
          · simp [hcu, hc] at h
          · simp [hcu, Text.indentFrom_cons_of_ne hc] at h
  · exact Spells.single h

end

/-- The front of the line that begins behind some tokens, if one begins there. -/
def leadAfter (front : Nat → Text) (done : List Token) : Text :=
  if Text.AtLineStart (texts done) then front (lineAfter done) else []

/-- A rendering **indents** a text by fronts if what it writes of a piece of the text is this piece,
indented by the fronts of the lines that belong to it. -/
structure Rendering.Indents (R : Rendering) (front : Nat → Text) (text : Text) : Prop where
  write_inner {p t s : Text} (h : text = p ++ t ++ s) :
    R.write .inner (Text.byteSize p) t = Text.indentFrom front (p.breaks + 1) t
  write_lineStart {p t s : Text} (h : text = p ++ t ++ s) :
    R.write .lineStart (Text.byteSize p) t =
      (if Text.AtLineStart p then front (p.breaks + 1) else []) ++
        Text.indentFrom front (p.breaks + 1) t

namespace Rendering.Indents

variable {R : Rendering} {front : Nat → Text} {done ts rest : List Token}
  (hR : R.Indents front (texts (done ++ ts ++ rest)))
include hR

/-- Tokens written where they stand are their indented text. -/
theorem write_tokens {offset : Nat} (ho : offset = Text.byteSize (texts done)) :
    R.write .inner offset (texts ts) = Text.indentFrom front (lineAfter done) (texts ts) := by
  subst ho
  exact hR.write_inner (s := texts rest) (by simp)

/-- Tokens written where they stand, with the line that begins in front of them. -/
theorem write_tokens_lineStart {offset : Nat} (ho : offset = Text.byteSize (texts done)) :
    R.write .lineStart offset (texts ts) =
      leadAfter front done ++ Text.indentFrom front (lineAfter done) (texts ts) := by
  subst ho
  exact hR.write_lineStart (s := texts rest) (by simp)

end Rendering.Indents

/-- Printing as it is indents by nothing. -/
theorem Rendering.plain_indents (text : Text) : Rendering.plain.Indents (fun _ => []) text where
  write_inner _ := by simp [Rendering.plain]
  write_lineStart _ := by simp [Rendering.plain]

end StyleBlocks.Sheet
