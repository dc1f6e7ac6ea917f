import StyleBlocks.Proofs.Location.Advance
import StyleBlocks.Proofs.Template.EscapeClosure

/-!
# Checked access

Some steps fail unless a condition holds: cutting a text needs boundaries in order, looking an entry up
needs an index that is there, and taking one number from another needs one that is no larger. The
modules beside this one write the program once more out of such steps, in bytes and indices, where
`none` is a **fault**, and show that it never faults and gives what the program gives. A loop that does
not go on to a later place of what it reads is a fault as well.

Here are the steps themselves, the lookup of positions, which searches the starts of lines, and the classes
of characters that can be told on single bytes.

## Main definitions

* `Checked.sub`, `Checked.tail`, `Checked.bump`: the steps, besides `Text.slice?` and `[·]?`.
* `Checked.position`: the position of an offset by a binary search.
* `Checked.IsByteClass`: characters of a class are one byte each, and no other character starts with such a
  byte.

## Main results

* `Checked.position_eq`: looking a position up does not fault.
* `Checked.IsByteClass.length_takeWhile`: bytes of a class end where its characters do.
-/

namespace StyleBlocks.Checked

/-! ### Steps -/

/-- Takes `n` from a number that is not below it. -/
def sub (m n : Nat) : Option Nat :=
  if n ≤ m then some (m - n) else none

/-- The text from an offset on. -/
def tail (o : Nat) (t : Text) : Option Text :=
  Text.slice? o (Text.byteSize t) t

/-- Goes on from an offset by a number of bytes, to a boundary of the text. -/
def bump (t : Text) (o n : Nat) : Option Nat :=
  if Text.IsBoundary t (o + n) then some (o + n) else none

/-- A number can be taken off one that is not below it. -/
theorem sub_of_le {m n : Nat} (h : n ≤ m) : sub m n = some (m - n) :=
  if_pos h

/-- One can be taken off a successor. -/
@[simp] theorem sub_succ (n : Nat) : sub (n + 1) 1 = some n :=
  sub_of_le (by omega)

/-- A text can be cut behind a part of it. -/
@[simp] theorem tail_append (p s : Text) : tail (Text.byteSize p) (p ++ s) = some s := by
  simpa [tail] using Text.slice?_append p s []

/-- What is left behind a part is the rest of the text. -/
theorem tail_of_eq_append {source done rest : Text} (h : source = done ++ rest) :
    tail (Text.byteSize done) source = some rest := by
  rw [h, tail_append]

/-- There is a boundary behind a part of a text. -/
theorem isBoundary_append (p s : Text) : Text.IsBoundary (p ++ s) (Text.byteSize p) := by
  rw [Text.IsBoundary, Text.takeBytes_append]

/-- Going on by the size of a part leads to the boundary behind it. -/
theorem bump_append (p g s : Text) :
    bump (p ++ g ++ s) (Text.byteSize p) (Text.byteSize g) = some (Text.byteSize (p ++ g)) := by
  rw [bump, ← Text.byteSize_append, if_pos (isBoundary_append (p ++ g) s)]

/-- Behind some text, the place is a later one. -/
theorem byteSize_lt_of_append {source done text rest : Text} (h : source = done ++ text ++ rest)
    (hne : text ≠ []) :
    Text.byteSize done < Text.byteSize (done ++ text) ∧
      Text.byteSize (done ++ text) ≤ Text.byteSize source := by
  have hpos := Text.byteSize_pos hne
  rw [h, Text.byteSize_append _ rest, Text.byteSize_append]
  omega

/-! ### Positions -/

/-- Looks a number up in ascending numbers: its index, or the index at which it would have to be put
in. -/
def search (ns : List Nat) (n : Nat) : Except Nat Nat :=
  let i := (ns.takeWhile (· < n)).length
  if ns[i]? = some n then .ok i else .error i

/-- The position of an offset. The line on which it lies is the one that starts there, or the one
before the place at which the offset would have to be put in. -/
def position (m : LineMap) (offset : Nat) : Option Position := do
  let o := min offset m.size
  let i ← match search m.starts o with
    | .ok i => some i
    | .error i => sub i 1
  let start ← m.starts[i]?
  let column ← sub o start
  return { line := i + 1, column := column + 1 }

/-- The range of a span. -/
def range (m : LineMap) (s : Span) : Option Range := do
  let start ← position m s.start
  let stop ← position m s.stop
  return { span := s, start := start, stop := stop }

/-- The lines of a line map start at ascending offsets, the first of them at the start. -/
structure IsAscending (m : LineMap) : Prop where
  head : m.starts.head? = some 0
  pairwise : m.starts.Pairwise (· < ·)

/-- Line breaks are found in ascending order. -/
theorem pairwise_breaksFrom (o : Nat) (t : Text) : (LineMap.breaksFrom o t).Pairwise (· < ·) := by
  induction t generalizing o with
  | nil => exact .nil
  | cons c t ih =>
      rw [LineMap.breaksFrom]
      split
      · exact .cons (fun _ hb => LineMap.lt_of_mem_breaksFrom hb) (ih _)
      · exact ih _

/-- The lines of a text start at ascending offsets. -/
theorem isAscending_ofText (t : Text) : IsAscending (LineMap.ofText t) where
  head := rfl
  pairwise := .cons (fun _ hb => LineMap.lt_of_mem_breaksFrom hb) (pairwise_breaksFrom 0 t)

/-- The numbers up to one are those below it, and itself if it is there. -/
theorem takeWhile_le_eq {ns : List Nat} (h : ns.Pairwise (· < ·)) (n : Nat) :
    ns.takeWhile (· ≤ n) = ns.takeWhile (· < n) ++
      if ns[(ns.takeWhile (· < n)).length]? = some n then [n] else [] := by
  induction ns with
  | nil => simp
  | cons a ns ih =>
      obtain ⟨ha, h⟩ := List.pairwise_cons.1 h
      rcases Nat.lt_trichotomy a n with hlt | rfl | hgt
      · simp [hlt, Nat.le_of_lt hlt, ih h]
      · have : ns.takeWhile (· ≤ a) = [] := by
          cases ns with
          | nil => rfl
          | cons b ns => simpa [List.takeWhile_cons] using ha b (by simp)
        simp [this]
      · simp [Nat.lt_asymm hgt, Nat.ne_of_gt hgt, Nat.not_le.2 hgt]

/-- A number that is not among those of an ascending list from zero on comes after one of them. -/
theorem exists_takeWhile_eq_concat {ns : List Nat} {n : Nat} (h : ns.head? = some 0)
    (hn : ns[(ns.takeWhile (· < n)).length]? ≠ some n) :
    ∃ front b, ns.takeWhile (· < n) = front ++ [b] ∧ ns[front.length]? = some b ∧ b ≤ n := by
  obtain ⟨ns, rfl⟩ : ∃ ms, ns = 0 :: ms := List.head?_eq_some_iff.1 h
  have hpos : 0 < n := by
    rcases Nat.eq_zero_or_pos n with rfl | hpos
    · simp at hn
    · exact hpos
  have hne : (0 :: ns).takeWhile (· < n) ≠ [] := by simp [hpos]
  obtain ⟨front, b, hA⟩ := (List.eq_nil_or_concat _).resolve_left hne
  rw [List.concat_eq_append] at hA
  have hb : b ∈ (0 :: ns).takeWhile (· < n) := by simp [hA]
  have hget : (0 :: ns)[front.length]? = some b := by
    have hsplit := List.takeWhile_append_dropWhile (p := (· < n)) (l := 0 :: ns)
    rw [hA] at hsplit
    rw [← hsplit]
    simp
  have hlt : decide (b < n) = true := List.all_eq_true.1 List.all_takeWhile b hb
  exact ⟨front, b, hA, hget, Nat.le_of_lt (of_decide_eq_true hlt)⟩

/-- **Looking a position up does not fault**, and gives the position that counting lines gives. -/
theorem position_eq {m : LineMap} (h : IsAscending m) (offset : Nat) :
    position m offset = some (m.position offset) := by
  have hle := takeWhile_le_eq h.pairwise (min offset m.size)
  simp only [position, LineMap.position, search]
  generalize min offset m.size = o at hle ⊢
  by_cases hfound : m.starts[(m.starts.takeWhile (· < o)).length]? = some o
  · rw [if_pos hfound] at hle ⊢
    simp [hle, hfound, sub_of_le]
  · obtain ⟨front, b, hfront, hget, hb⟩ := exists_takeWhile_eq_concat h.head hfound
    rw [if_neg hfound, List.append_nil] at hle
    rw [hfront] at hle hfound ⊢
    rw [List.length_append, List.length_singleton] at hfound
    simp [hle, if_neg hfound, hget, sub_of_le hb]

/-- The range of a span is found where the lines ascend. -/
theorem range_eq {m : LineMap} (h : IsAscending m) (s : Span) : range m s = some (m.range s) := by
  simp [range, LineMap.range, position_eq h]

/-! ### Classes of bytes -/

open Template

/-- The characters of the class `q` are the bytes of the class `p`. -/
structure IsByteClass (p : UInt8 → Bool) (q : Char → Bool) : Prop where
  lt_of_mem : ∀ c, q c = true → c.toNat < 128
  eq_of_lt : ∀ c, c.toNat < 128 → p (UInt8.ofNat c.toNat) = q c
  eq_false : ∀ b, 128 ≤ b → p b = false

namespace IsByteClass

variable {p : UInt8 → Bool} {q : Char → Bool} (h : IsByteClass p q)

include h

/-- A character of the class is one byte of the class, and any other one starts with another byte. -/
theorem cases (c : Char) :
    (q c = true ∧ c.utf8Size = 1 ∧ ∃ b, String.utf8EncodeChar c = [b] ∧ p b = true) ∨
      (q c = false ∧ ∃ b bs, String.utf8EncodeChar c = b :: bs ∧ p b = false) := by
  have hsize := String.length_utf8EncodeChar c
  rcases RawText.utf8EncodeChar_cases c with ⟨hc, hone⟩ | hbytes
  · rw [hone] at hsize
    cases hq : q c with
    | true => exact Or.inl ⟨rfl, hsize.symm, _, hone, (h.eq_of_lt c hc).trans hq⟩
    | false => exact Or.inr ⟨rfl, _, [], hone, (h.eq_of_lt c hc).trans hq⟩
  · cases he : String.utf8EncodeChar c with
    | nil => exact absurd he String.utf8EncodeChar_ne_nil
    | cons b bs =>
        have hb : 128 ≤ b := hbytes b (by simp [he])
        refine Or.inr ⟨?_, b, bs, rfl, h.eq_false b hb⟩
        -- A character of the class would be one byte below.
        by_contra hq
        have hc : c.val.toNat ≤ 127 := Nat.le_of_lt_succ (h.lt_of_mem c (by simpa using hq))
        simp only [String.utf8EncodeChar, if_pos hc, List.cons.injEq] at he
        have := UInt8.le_iff_toNat_le.1 (he.1 ▸ hb)
        rw [UInt8.toNat_ofNat_of_lt' (Nat.lt_of_le_of_lt hc (by decide))] at this
        exact absurd this (by simpa using Nat.lt_succ_of_le hc)

/-- The bytes of the class at the start of a text are those of its characters of the class. -/
theorem length_takeWhile (t : Text) :
    ((RawText.utf8 t).takeWhile p).length = Text.byteSize (t.takeWhile q) := by
  induction t with
  | nil => rfl
  | cons c t ih =>
      rw [RawText.utf8_cons]
      rcases h.cases c with ⟨hq, hsize, b, hb, hp⟩ | ⟨hq, b, bs, hb, hp⟩
      · simp [hb, hp, hq, hsize, ih, Nat.add_comm]
      · simp [hb, hp, hq]

/-- A text starts with `n` bytes of the class if it starts with `n` characters of the class. -/
theorem all_take_iff (n : Nat) (t : Text) :
    n ≤ Text.byteSize t ∧ ((RawText.utf8 t).take n).all p = true ↔
      n ≤ t.length ∧ (t.take n).all q = true := by
  induction t generalizing n with
  | nil => simp [RawText.utf8]
  | cons c t ih =>
      cases n with
      | zero => simp
      | succ n =>
          rw [RawText.utf8_cons]
          rcases h.cases c with ⟨hq, hsize, b, hb, hp⟩ | ⟨hq, b, bs, hb, hp⟩
          · simpa [hb, hp, hq, hsize, Nat.add_comm 1] using ih n
          · simp [hb, hp, hq]

/-- Characters of the class have one byte each. -/
theorem byteSize_eq_length {t : Text} (ht : t.all q = true) : Text.byteSize t = t.length := by
  induction t with
  | nil => rfl
  | cons c t ih =>
      obtain ⟨hc, ht⟩ : q c = true ∧ t.all q = true := by simpa using ht
      rcases h.cases c with ⟨-, hsize, -⟩ | ⟨hq, -⟩
      · simp [hsize, ih ht, Nat.add_comm]
      · simp [hq] at hc

end IsByteClass

end StyleBlocks.Checked
