import Mathlib.Data.List.Induction
import StyleBlocks.Location.LineMap

/-!
# Positions by walking

A position is what one comes to by walking over the text in front of it: a line feed leads to the
start of the next line, any other character moves the column by its size. This module shows that a
line map finds the same positions, which makes them composable: walking over two texts is walking
over the one and then over the other.

## Main results

* `LineMap.position_append`: the position at a cut is reached by walking over the text before it.
* `LineMap.position_append_add`: inside a character only the column moves on.
* `LineMap.isLineStart_append_iff`: a line starts at a cut if nothing or a line feed stands before
  it.
-/

namespace StyleBlocks

/-- The number of line feeds in a text. -/
def Text.breaks (t : Text) : Nat :=
  t.count '\n'

namespace Text

@[simp] theorem breaks_nil : breaks [] = 0 := rfl

/-- The line breaks of two texts are those of the one and those of the other. -/
@[simp] theorem breaks_append (s t : Text) : breaks (s ++ t) = breaks s + breaks t :=
  List.count_append

/-- A line feed is one line break more. -/
@[simp] theorem breaks_cons_newline (t : Text) : breaks ('\n' :: t) = breaks t + 1 := by
  simp [breaks]

/-- A character that is no line feed is no line break. -/
theorem breaks_cons_of_ne {c : Char} (h : c ≠ '\n') (t : Text) : breaks (c :: t) = breaks t :=
  List.count_cons_of_ne h

/-- A text without line feeds has no line breaks. -/
theorem breaks_eq_zero {t : Text} (h : '\n' ∉ t) : breaks t = 0 :=
  List.count_eq_zero.2 h

/-- What follows a text begins a line if nothing or a line feed stands last in the text. -/
def AtLineStart (t : Text) : Prop :=
  t = [] ∨ t.getLast? = some '\n'

instance (t : Text) : Decidable (AtLineStart t) :=
  inferInstanceAs (Decidable (_ ∨ _))

/-- Behind a text that ends in another character than a line feed no line begins. -/
theorem not_atLineStart_append {t : Text} (hne : t ≠ []) (hlast : t.getLast? ≠ some '\n')
    (s : Text) :
    ¬ AtLineStart (s ++ t) := by
  rintro (h | h)
  · exact hne (List.append_eq_nil_iff.1 h).2
  · rw [List.getLast?_append, List.getLast?_eq_some_getLast hne, Option.some_or,
      ← List.getLast?_eq_some_getLast hne] at h
    exact hlast h

/-- A nonempty text has a positive size. -/
theorem byteSize_pos {t : Text} (h : t ≠ []) : 0 < byteSize t := by
  obtain ⟨c, u, rfl⟩ := List.exists_cons_of_ne_nil h
  have := Char.utf8Size_pos c
  rw [byteSize_cons]
  omega

/-- A text without bytes is empty. -/
@[simp] theorem byteSize_eq_zero_iff {t : Text} : byteSize t = 0 ↔ t = [] := by
  constructor
  · intro h
    by_contra hne
    have := byteSize_pos hne
    omega
  · rintro rfl
    rfl

end Text

namespace Position

/-- The position that one character leads to. -/
def next (p : Position) (c : Char) : Position :=
  if c = '\n' then ⟨p.line + 1, 1⟩ else ⟨p.line, p.column + c.utf8Size⟩

/-- The position that a text leads to. -/
def advance (p : Position) (t : Text) : Position :=
  t.foldl next p

@[simp] theorem advance_nil (p : Position) : p.advance [] = p := rfl

@[simp] theorem advance_cons (p : Position) (c : Char) (t : Text) :
    p.advance (c :: t) = (p.next c).advance t := rfl

/-- Walking over two texts is walking over the one and then over the other. -/
@[simp] theorem advance_append (p : Position) (s t : Text) :
    p.advance (s ++ t) = (p.advance s).advance t :=
  List.foldl_append

/-- A line feed leads to the start of the next line. -/
@[simp] theorem next_newline (p : Position) : p.next '\n' = ⟨p.line + 1, 1⟩ := rfl

/-- A text moves the line by the number of its line feeds. -/
@[simp] theorem line_advance (p : Position) (t : Text) :
    (p.advance t).line = p.line + t.breaks := by
  induction t generalizing p with
  | nil => rfl
  | cons c t ih =>
      rw [advance_cons, ih]
      by_cases h : c = '\n'
      · subst h
        simp only [next_newline, Text.breaks_cons_newline]
        omega
      · simp only [next, if_neg h, Text.breaks_cons_of_ne h]

/-- Within a line a text moves the column by its size. -/
theorem advance_of_notMem {t : Text} (h : '\n' ∉ t) (p : Position) :
    p.advance t = ⟨p.line, p.column + Text.byteSize t⟩ := by
  induction t generalizing p with
  | nil => rfl
  | cons c t ih =>
      rw [List.mem_cons, not_or] at h
      rw [advance_cons, ih h.2, next, if_neg (Ne.symm h.1), Text.byteSize_cons, Nat.add_assoc]

/-- Behind a line feed a line begins. -/
theorem column_advance_of_getLast? {t : Text} (h : t.getLast? = some '\n') (p : Position) :
    (p.advance t).column = 1 := by
  obtain ⟨s, rfl⟩ := List.getLast?_eq_some_iff.1 h
  rw [advance_append]
  rfl

end Position

namespace LineMap

/-! ### Breaks -/

/-- The line breaks behind a text are found as far on as it reaches. -/
theorem breaksFrom_append (o : Nat) (s t : Text) :
    breaksFrom o (s ++ t) = breaksFrom o s ++ breaksFrom (o + Text.byteSize s) t := by
  induction s generalizing o with
  | nil => rfl
  | cons c s ih =>
      by_cases h : c = '\n' <;> simp [breaksFrom, h, ih, Nat.add_assoc]

/-- There are as many line breaks as are counted. -/
theorem length_breaksFrom (o : Nat) (t : Text) : (breaksFrom o t).length = t.breaks := by
  induction t generalizing o with
  | nil => rfl
  | cons c t ih =>
      by_cases h : c = '\n'
      · subst h
        simp [breaksFrom, ih]
      · simp [breaksFrom, h, ih, Text.breaks_cons_of_ne h]

/-- Lines after the first start behind the place where the text starts. -/
theorem lt_of_mem_breaksFrom {o b : Nat} {t : Text} (h : b ∈ breaksFrom o t) : o < b := by
  induction t generalizing o with
  | nil => simp [breaksFrom] at h
  | cons c t ih =>
      have := Char.utf8Size_pos c
      simp only [breaksFrom] at h
      split at h
      · rcases List.mem_cons.1 h with rfl | h
        · omega
        · have := ih h
          omega
      · have := ih h
        omega

/-- Lines start within the text or at its end. -/
theorem le_of_mem_breaksFrom {o b : Nat} {t : Text} (h : b ∈ breaksFrom o t) :
    b ≤ o + Text.byteSize t := by
  induction t generalizing o with
  | nil => simp [breaksFrom] at h
  | cons c t ih =>
      rw [Text.byteSize_cons]
      simp only [breaksFrom] at h
      split at h
      · rcases List.mem_cons.1 h with rfl | h
        · omega
        · have := ih h
          omega
      · have := ih h
        omega

/-! ### Positions at a cut -/

/-- The lines that start at or before a place between two cuts with no line start between them. -/
theorem takeWhile_starts {p s : Text} {o : Nat} (hp : Text.byteSize p ≤ o)
    (hs : ∀ b ∈ breaksFrom (Text.byteSize p) s, o < b) :
    (ofText (p ++ s)).starts.takeWhile (· ≤ o) = 0 :: breaksFrom 0 p := by
  have hleft : ∀ b ∈ 0 :: breaksFrom 0 p, decide (b ≤ o) = true := by
    intro b hb
    rw [decide_eq_true_eq]
    rcases List.mem_cons.1 hb with rfl | hb
    · exact Nat.zero_le _
    · have := le_of_mem_breaksFrom hb
      omega
  have hright : (breaksFrom (Text.byteSize p) s).takeWhile (· ≤ o) = [] := by
    cases hr : breaksFrom (Text.byteSize p) s with
    | nil => rfl
    | cons b bs =>
        have hb := hs b (by rw [hr]; exact List.mem_cons_self)
        rw [List.takeWhile_cons_of_neg (by simpa using hb)]
  rw [ofText, breaksFrom_append, Nat.zero_add, ← List.cons_append,
    List.takeWhile_append_of_pos hleft, hright, List.append_nil]

/-- The last line of a text starts within the text. -/
theorem getLastD_starts_le (p : Text) :
    (0 :: breaksFrom 0 p).getLastD 0 ≤ Text.byteSize p := by
  rw [List.getLastD_eq_getLast?, List.getLast?_eq_some_getLast (by simp), Option.getD_some]
  rcases List.mem_cons.1 (List.getLast_mem (l := 0 :: breaksFrom 0 p) (by simp)) with h | h
  · omega
  · have := le_of_mem_breaksFrom h
    omega

/-- Walking over a text leads to its last line, and there to the distance from the start of this
line. -/
theorem advance_eq (p : Text) :
    Position.advance {} p =
      ⟨p.breaks + 1, Text.byteSize p - (0 :: breaksFrom 0 p).getLastD 0 + 1⟩ := by
  induction p using List.reverseRecOn with
  | nil => rfl
  | append_singleton p c ih =>
      have hle := getLastD_starts_le p
      have hsize : Text.byteSize (p ++ [c]) = Text.byteSize p + c.utf8Size := by simp
      have hbreaks : Text.breaks (p ++ [c]) = Text.breaks p + Text.breaks [c] :=
        Text.breaks_append p [c]
      rw [Position.advance_append, ih, breaksFrom_append, Nat.zero_add, ← List.cons_append, hsize,
        hbreaks, Position.advance_cons, Position.advance_nil, Position.next, breaksFrom, breaksFrom]
      by_cases h : c = '\n'
      · subst h
        rw [if_pos rfl, if_pos rfl, List.getLastD_concat, Text.breaks_cons_newline, Nat.sub_self]
        rfl
      · rw [if_neg h, if_neg h, List.append_nil, Text.breaks_cons_of_ne h, Position.mk.injEq]
        refine ⟨rfl, ?_⟩
        dsimp only
        omega

/-- No text has more lines than bytes, and one. -/
theorem breaks_le_byteSize (p : Text) : p.breaks ≤ Text.byteSize p := by
  induction p with
  | nil => exact Nat.le_refl _
  | cons c p ih =>
      have := Char.utf8Size_pos c
      rw [Text.byteSize_cons]
      by_cases h : c = '\n'
      · subst h
        rw [Text.breaks_cons_newline]
        omega
      · rw [Text.breaks_cons_of_ne h]
        omega

/-- Lines and columns are no larger than what stands in front of them. -/
theorem advance_le (p : Text) :
    (Position.advance {} p).line ≤ Text.byteSize p + 1 ∧ 0 < (Position.advance {} p).column ∧
      (Position.advance {} p).column ≤ Text.byteSize p + 1 := by
  have := breaks_le_byteSize p
  rw [advance_eq]
  simp only
  omega

/-- A place in a text behind a cut, with no line start between them, stands on the line of the cut.
-/
theorem position_append_add {p s : Text} {d : Nat} (hd : d ≤ Text.byteSize s)
    (hs : ∀ b ∈ breaksFrom (Text.byteSize p) s, Text.byteSize p + d < b) :
    (ofText (p ++ s)).position (Text.byteSize p + d) =
      ⟨(Position.advance {} p).line, (Position.advance {} p).column + d⟩ := by
  have hsize : min (Text.byteSize p + d) (ofText (p ++ s)).size = Text.byteSize p + d := by
    simp only [ofText, Text.byteSize_append]
    omega
  have hlast := getLastD_starts_le p
  rw [position, hsize, takeWhile_starts (Nat.le_add_right _ _) hs, advance_eq]
  simp only [List.length_cons, length_breaksFrom, Position.mk.injEq, true_and]
  omega

/-- **The position at a cut** is what the text before it leads to. -/
theorem position_append (p s : Text) :
    (ofText (p ++ s)).position (Text.byteSize p) = Position.advance {} p := by
  exact position_append_add (p := p) (s := s) (d := 0) (Nat.zero_le _)
    fun b hb => by simpa using lt_of_mem_breaksFrom hb

/-- The position at a cut of a text. -/
theorem position_of_eq {t p s : Text} (h : t = p ++ s) :
    (ofText t).position (Text.byteSize p) = Position.advance {} p :=
  h ▸ position_append p s

/-- The position of a place in a text that is a cut, or lies within the character behind one. -/
theorem position_add_of_eq {t p s : Text} {d : Nat} (h : t = p ++ s)
    (hd : d = 0 ∨ ∃ c s', s = c :: s' ∧ d < c.utf8Size) :
    (ofText t).position (Text.byteSize p + d) =
      ⟨(Position.advance {} p).line, (Position.advance {} p).column + d⟩ := by
  rcases hd with rfl | ⟨c, s', rfl, hd⟩
  · exact position_of_eq h
  · subst h
    refine position_append_add (by rw [Text.byteSize_cons]; omega) fun b hb => ?_
    rw [breaksFrom] at hb
    split at hb
    · rcases List.mem_cons.1 hb with rfl | hb
      · omega
      · have := lt_of_mem_breaksFrom hb
        omega
    · have := lt_of_mem_breaksFrom hb
      omega

/-- The line of a cut. -/
theorem lineOf_append (p s : Text) :
    (ofText (p ++ s)).lineOf (Text.byteSize p) = p.breaks + 1 := by
  rw [lineOf, position_append, Position.line_advance, Nat.add_comm]

/-- A line starts at a cut exactly if nothing stands before it, or a line feed does. -/
theorem isLineStart_append_iff (p s : Text) :
    (ofText (p ++ s)).isLineStart (Text.byteSize p) = true ↔ Text.AtLineStart p := by
  have hright : Text.byteSize p ∉ breaksFrom (Text.byteSize p) s := fun h => by
    have := lt_of_mem_breaksFrom h
    omega
  rw [isLineStart, List.contains_iff_mem, ofText, breaksFrom_append, Nat.zero_add, List.mem_cons,
    List.mem_append, or_iff_left hright, Text.byteSize_eq_zero_iff, Text.AtLineStart]
  refine or_congr_right ?_
  rcases List.eq_nil_or_concat p with rfl | ⟨p, c, rfl⟩
  · simp [breaksFrom]
  · have hp : Text.byteSize p + c.utf8Size ∉ breaksFrom 0 p := fun h => by
      have := le_of_mem_breaksFrom h
      have := Char.utf8Size_pos c
      omega
    by_cases h : c = '\n' <;> simp [breaksFrom_append, breaksFrom, h, hp]

end LineMap

end StyleBlocks
