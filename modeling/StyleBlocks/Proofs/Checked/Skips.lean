import StyleBlocks.Proofs.Checked.Access
import StyleBlocks.Template.Scan

/-!
# Lengths of what is skipped

How far a regular expression or type arguments go is found out by going through the characters with their
byte offsets, and the flags of a regular expression by going through bytes. The lengths are those of
whole characters, so that reading goes on at a boundary.

## Main results

* `Checked.regexBytes_eq`: the length of a regular expression is found without a fault.
* `Checked.typeArgumentsBytes_eq`: so is the length of type arguments.
-/

namespace StyleBlocks.Checked

open Template

/-! ### Regular expressions -/

/-- The bytes of letters. -/
def isLetterByte (b : UInt8) : Bool :=
  (0x41 ≤ b && b ≤ 0x5a) || (0x61 ≤ b && b ≤ 0x7a)

/-- The number of bytes from the opening slash of a regular expression, that excluded, up to its
closing slash and flags, if it closes on its line. -/
def regexBytes (text : Text) : Option (Option Nat) :=
  go false 0 text
where
  /-- The same from byte `i` on; `inClass` tells if a class is open. -/
  go (inClass : Bool) (i : Nat) : Text → Option (Option Nat)
    | [] => some none
    | ['\\'] => some none
    | '\\' :: c :: t => go inClass (i + 1 + c.utf8Size) t
    | '/' :: t =>
      if inClass then go inClass (i + 1) t
      else if i = 0 then some none
      else do
        let after ← tail (i + 1) text
        return some (i + 1 + ((RawText.utf8 after).takeWhile isLetterByte).length)
    | '[' :: t => go true (i + 1) t
    | ']' :: t => go false (i + 1) t
    | c :: t => if isLineEnd c then some none else go inClass (i + c.utf8Size) t

/-- Letters are told by their numbers. -/
theorem isAlpha_iff (c : Char) : c.isAlpha = true ↔
    (65 ≤ c.toNat ∧ c.toNat ≤ 90) ∨ (97 ≤ c.toNat ∧ c.toNat ≤ 122) := by
  have h : c.isAlpha = (decide ('A'.val ≤ c.val ∧ c.val ≤ 'Z'.val) ||
    (decide ('a'.val ≤ c.val) && decide (c.val ≤ 'z'.val))) := rfl
  simp only [h, Bool.or_eq_true, Bool.and_eq_true, decide_eq_true_eq, UInt32.le_iff_toNat_le]
  exact Iff.rfl

/-- Letters are told by their one byte. -/
theorem isByteClass_isLetterByte : IsByteClass isLetterByte Char.isAlpha where
  lt_of_mem c h := by
    have := (isAlpha_iff c).1 h
    omega
  eq_of_lt c h := by
    have hbyte : (UInt8.ofNat c.toNat).toNat = c.toNat :=
      UInt8.toNat_ofNat_of_lt' (Nat.lt_trans h (by decide))
    rw [Bool.eq_iff_iff, isAlpha_iff]
    simp only [isLetterByte, Bool.or_eq_true, Bool.and_eq_true, decide_eq_true_eq,
      UInt8.le_iff_toNat_le, hbyte]
    exact Iff.rfl
  eq_false b h := by
    have h := UInt8.le_iff_toNat_le.1 h
    have hle : ∀ n : UInt8, n.toNat < 128 → ¬ b ≤ n := by
      intro n hn hb
      have := UInt8.le_iff_toNat_le.1 hb
      simp at h
      omega
    simp [isLetterByte, hle 0x5a (by decide), hle 0x7a (by decide)]

/-- From a place in the text on, the length of a regular expression is found in bytes. -/
theorem regexBytes_go (inClass : Bool) (done t : Text) (h : done = [] → t.head? ≠ some '/') :
    regexBytes.go (done ++ t) inClass (Text.byteSize done) t =
      some ((regexLength.go inClass t).map fun k =>
        Text.byteSize done + Text.byteSize (t.take k)) := by
  fun_induction regexLength.go inClass t generalizing done with
  | case1 inClass | case2 inClass => simp [regexBytes.go]
  | case3 inClass c t ih =>
      simpa [regexBytes.go, Function.comp_def, ← Nat.add_assoc] using ih (done ++ ['\\', c]) (by simp)
  | case4 t ih =>
      simpa [regexBytes.go, Function.comp_def, ← Nat.add_assoc] using ih (done ++ ['/']) (by simp)
  | case6 inClass t ih =>
      simpa [regexBytes.go, Function.comp_def, ← Nat.add_assoc] using ih (done ++ ['[']) (by simp)
  | case7 inClass t ih =>
      simpa [regexBytes.go, Function.comp_def, ← Nat.add_assoc] using ih (done ++ [']']) (by simp)
  | case5 inClass t hclass =>
      have hpos : Text.byteSize done ≠ 0 := by simpa using h
      have htail : tail (Text.byteSize done + 1) (done ++ '/' :: t) = some t := by
        simpa using tail_append (done ++ ['/']) t
      have htake : (('/' :: t).take (1 + (t.takeWhile Char.isAlpha).length)) =
          '/' :: t.takeWhile Char.isAlpha := by
        rw [Nat.add_comm, List.take_succ_cons,
          ← List.prefix_iff_eq_take.1 (List.takeWhile_prefix Char.isAlpha)]
      simp [regexBytes.go, hclass, hpos, htail, htake, isByteClass_isLetterByte.length_takeWhile,
        Nat.add_assoc]
  | case8 inClass c t hend hpair hslash hopen hclose hc =>
      rw [regexBytes.go] <;> simp_all
  | case9 inClass c t hend hpair hslash hopen hclose hc ih =>
      rw [regexBytes.go, if_neg hc]
      · simpa [Function.comp_def, ← Nat.add_assoc] using ih (done ++ [c]) (by simp)
      all_goals assumption

/-- **The length of a regular expression** is found without a fault, and is that of whole
characters. -/
theorem regexBytes_eq (t : Text) :
    regexBytes t = some ((regexLength t).map fun k => Text.byteSize (t.take k)) := by
  rw [regexBytes, regexLength]
  split
  · next h =>
      obtain ⟨t, rfl⟩ := List.head?_eq_some_iff.1 h
      simp [regexBytes.go]
  · next h => simpa using regexBytes_go false [] t fun _ => h

/-! ### Type arguments -/

/-- The number of bytes from the opening angle bracket of type arguments, that excluded, up to the
backtick that follows their closing bracket, if one does. -/
def typeArgumentsBytes (text : Text) : Option (Option Nat) :=
  go 1 '<' 0 text
where
  /-- The same from byte `i` on, after the character `previous`, with `depth` brackets open. -/
  go (depth : Nat) (previous : Char) (i : Nat) : Text → Option (Option Nat)
    | [] => some none
    | c :: t =>
      if typeArgumentsLimit < i then some none
      else if c = '<' then go (depth + 1) c (i + c.utf8Size) t
      else if c = '>' ∧ previous ≠ '=' then do
        let depth ← sub depth 1
        if depth = 0 then
          let after ← tail (i + 1) text
          let gap ← sub (Text.byteSize after) (Text.byteSize (Text.trimStart after))
          let behind ← tail gap after
          return if behind.head? = some '\x60' then some (i + 1 + gap) else none
        else go depth c (i + c.utf8Size) t
      else if c = '\x60' then some none
      else go depth c (i + c.utf8Size) t

/-- Trimming takes away as many bytes as the blanks have that a text starts with. -/
theorem sub_trimStart (t : Text) :
    sub (Text.byteSize t) (Text.byteSize (Text.trimStart t)) =
      some (Text.byteSize (t.takeWhile isBlank)) := by
  have hsize := congrArg Text.byteSize (List.takeWhile_append_dropWhile (p := isBlank) (l := t))
  rw [Text.byteSize_append] at hsize
  rw [Text.trimStart, sub_of_le (by omega)]
  congr 1
  omega

/-- A text can be cut behind the characters that it starts with and that satisfy a test. -/
theorem tail_takeWhile (p : Char → Bool) (t : Text) :
    tail (Text.byteSize (t.takeWhile p)) t = some (t.dropWhile p) := by
  simpa using tail_append (t.takeWhile p) (t.dropWhile p)

/-- From a place in the text on, the length of type arguments is found in bytes. -/
theorem typeArgumentsBytes_go (depth : Nat) (previous : Char) (done t : Text) (h : 0 < depth) :
    typeArgumentsBytes.go (done ++ t) depth previous (Text.byteSize done) t =
      some ((typeArgumentsLength.go depth previous (Text.byteSize done) t).map fun k =>
        Text.byteSize done + Text.byteSize (t.take k)) := by
  induction t generalizing depth previous done with
  | nil => simp [typeArgumentsBytes.go, typeArgumentsLength.go]
  | cons c t ih =>
      have next : ∀ d, 0 < d →
          typeArgumentsBytes.go (done ++ c :: t) d c (Text.byteSize done + c.utf8Size) t =
            some (((typeArgumentsLength.go d c (Text.byteSize done + c.utf8Size) t).map (· + 1)).map
              fun k => Text.byteSize done + Text.byteSize ((c :: t).take k)) := by
        intro d hd
        simpa [Function.comp_def, ← Nat.add_assoc] using ih d c (done ++ [c]) hd
      rw [typeArgumentsBytes.go, typeArgumentsLength.go]
      by_cases hlimit : typeArgumentsLimit < Text.byteSize done
      · simp [hlimit]
      rw [if_neg hlimit, if_neg hlimit]
      by_cases hopen : c = '<'
      · rw [if_pos hopen, if_pos hopen]
        exact next _ (by omega)
      rw [if_neg hopen, if_neg hopen]
      by_cases hclose : c = '>' ∧ previous ≠ '='
      · rw [if_pos hclose, if_pos hclose]
        by_cases hdepth : depth = 1
        · -- The last bracket closes: blanks may stand between it and the backtick.
          obtain ⟨rfl, -⟩ := hclose
          have hafter : tail (Text.byteSize done + 1) (done ++ '>' :: t) = some t := by
            simpa using tail_append (done ++ ['>']) t
          have hgap : (t.takeWhile isBlank ++ t.dropWhile isBlank).drop (t.takeWhile isBlank).length =
              t.dropWhile isBlank := List.drop_left
          rw [List.takeWhile_append_dropWhile] at hgap
          have htake : t.take (t.takeWhile isBlank).length = t.takeWhile isBlank :=
            (List.prefix_iff_eq_take.1 (List.takeWhile_prefix isBlank)).symm
          simp only [hdepth, sub_of_le, hafter, sub_trimStart, tail_takeWhile, hgap,
            Option.bind_eq_bind, Option.bind_some, Nat.le_refl, Nat.sub_self, if_true]
          split
          · simp [Nat.add_comm 1, htake, Nat.add_assoc]
          · rfl
        · rw [if_neg hdepth, sub_of_le h]
          simpa [Nat.sub_eq_zero_iff_le, show ¬ depth ≤ 1 by omega] using next (depth - 1) (by omega)
      rw [if_neg hclose, if_neg hclose]
      by_cases hquote : c = '\x60'
      · simp [hquote]
      · rw [if_neg hquote, if_neg hquote]
        exact next _ h

/-- **The length of type arguments** is found without a fault, and is that of whole characters. -/
theorem typeArgumentsBytes_eq (t : Text) :
    typeArgumentsBytes t = some ((typeArgumentsLength t).map fun k => Text.byteSize (t.take k)) := by
  simpa [typeArgumentsBytes, typeArgumentsLength] using typeArgumentsBytes_go 1 '<' [] t Nat.one_pos

end StyleBlocks.Checked
