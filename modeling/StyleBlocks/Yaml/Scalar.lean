import StyleBlocks.Json.Reader
import StyleBlocks.Yaml.Basic

/-!
# YAML scalars

A scalar is written plain, in single or double quotes, or as a block of lines. Plain and quoted scalars
may go on over several lines; the blanks around a line break fold into one space, or into the line breaks
after the first if there are more.

Columns count characters from 0.
-/

namespace StyleBlocks.Yaml

/-- A scalar that has been read. -/
structure Scalar where
  /-- Its text. -/
  text : Text
  /-- What follows it. -/
  rest : Text
  /-- The column at which that starts. -/
  column : Nat
  /-- Whether that stands on a later line. -/
  broken : Bool := false

/-! ### Folding -/

/-- The blanks between two words of a scalar. -/
inductive Gap where
  /-- Spaces and tabs. -/
  | spaces (t : Text)
  /-- Line breaks: the first of them, unless it is escaped, and the others. -/
  | breaks (first : Option Char) (more : Text)
deriving DecidableEq

namespace Gap

/-- Adds a space or a tab; after a line break these are indentation. -/
def addSpace (c : Char) : Gap → Gap
  | spaces t => spaces (t ++ [c])
  | breaks first more => breaks first more

/-- Adds a line break. -/
def addBreak (c : Char) : Gap → Gap
  | spaces _ => breaks (some c) []
  | breaks first more => breaks first (more ++ [c])

/-- Whether there is a line break. -/
def isBroken : Gap → Bool
  | spaces _ => false
  | breaks .. => true

/-- What the blanks become in the text of the scalar. -/
def fold : Gap → Text
  | spaces t => t
  | breaks (some '\n') [] => [' ']
  | breaks (some '\n') more => more
  | breaks first more => first.toList ++ more

end Gap

/-! ### Plain scalars -/

/-- Characters that end a plain scalar in a flow collection. -/
def isFlowIndicator (c : Char) : Bool :=
  c == ',' || c == '[' || c == ']' || c == '{' || c == '}'

/-- Reads a plain scalar to its end. The words up to here are `text`, the blanks after them `gap`; lines
of a scalar outside flow collections start at `least` or further right. -/
def plainFrom (flow : Bool) (least : Nat) (text : Text) (gap : Gap) (column : Nat) :
    Text → Option Scalar
  | [] => some ⟨text, [], column, gap.isBroken⟩
  | c :: t =>
    if isSpace c then
      if gap.isBroken ∧ c = '\t' ∧ column < least then none
      else plainFrom flow least text (gap.addSpace c) (column + 1) t
    else if isBreak c then plainFrom flow least text (gap.addBreak c) 0 t
    else
      let startsWord := gap ≠ .spaces []
      let outside := !flow ∧ gap.isBroken ∧ column < least
      if startsWord ∧ (outside ∨ c = '#' ∨ (column = 0 ∧ startsMarker (c :: t))) then
        some ⟨text, c :: t, column, gap.isBroken⟩
      else if flow ∧ c = ':' ∧ t.head?.any fun d => isFlowIndicator d || d == '?' then none
      else if (c = ':' ∧ startsBlank t) ∨ (flow ∧ isFlowIndicator c) then
        some ⟨text, c :: t, column, gap.isBroken⟩
      else
        plainFrom flow least (text ++ gap.fold ++ [c]) (.spaces []) (column + 1) t

/-- A plain scalar leaves no more text than there was. -/
theorem length_rest_plainFrom_le {flow : Bool} {least : Nat} {text : Text} {gap : Gap}
    {column : Nat} {t : Text} {s : Scalar}
    (h : plainFrom flow least text gap column t = some s) : s.rest.length ≤ t.length := by
  fun_induction plainFrom flow least text gap column t with
  | case1 => cases h; simp
  | case2 => contradiction
  | case3 _ _ _ _ _ _ _ ih => exact Nat.le_succ_of_le (ih h)
  | case4 _ _ _ _ _ _ _ ih => exact Nat.le_succ_of_le (ih h)
  | case5 => cases h; simp
  | case6 => contradiction
  | case7 => cases h; simp
  | case8 _ _ _ _ _ _ _ _ _ _ _ _ ih => exact Nat.le_succ_of_le (ih h)

/-! ### Quoted scalars -/

/-- The character that a backslash and a letter stand for in double quotes, given what follows the
letter, and how many characters of that belong to the escape. -/
def escape? (letter : Char) (t : Text) : Option (Char × Nat) :=
  match letter with
  | '0' => some ('\x00', 0)
  | 'a' => some ('\x07', 0)
  | 'b' => some ('\x08', 0)
  | 't' | '\t' => some ('\t', 0)
  | 'n' => some ('\n', 0)
  | 'v' => some ('\x0b', 0)
  | 'f' => some ('\x0c', 0)
  | 'r' => some ('\r', 0)
  | 'e' => some ('\x1b', 0)
  | ' ' => some (' ', 0)
  | '\x22' => some ('\x22', 0)
  | '/' => some ('/', 0)
  | '\\' => some ('\\', 0)
  | 'N' => some ('\u0085', 0)
  | '_' => some ('\u00a0', 0)
  | 'L' => some ('\u2028', 0)
  | 'P' => some ('\u2029', 0)
  | 'x' => code? 2
  | 'u' => code? 4
  | 'U' => code? 8
  | _ => none
where
  /-- The character with the code that the next `n` hexadecimal digits denote. -/
  code? (n : Nat) : Option (Char × Nat) := do
    let code ← Json.hexValue? (t.take n)
    if (t.take n).length = n ∧ code.isValidChar then some (Char.ofNat code, n) else none

/-- Reads a quoted scalar to its closing quote. The words up to here are `text`, the blanks after them
`gap`. -/
def quotedFrom (quote : Char) (text : Text) (gap : Gap) (column : Nat) :
    Text → Option Scalar
  | [] => none
  | c :: t =>
    if isSpace c then quotedFrom quote text (gap.addSpace c) (column + 1) t
    else if isBreak c then quotedFrom quote text (gap.addBreak c) 0 t
    else if column = 0 ∧ startsMarker (c :: t) then none
    else
      let text := text ++ gap.fold
      if c = quote then
        match t with
        | [] => some ⟨text, [], column + 1, false⟩
        | d :: u =>
          if quote = '\x27' ∧ d = quote then
            quotedFrom quote (text ++ [d]) (.spaces []) (column + 2) u
          else some ⟨text, d :: u, column + 1, false⟩
      else if c = '\\' ∧ quote = '\x22' then
        match t with
        | [] => none
        | d :: u =>
          if isBreak d then quotedFrom quote text (.breaks none []) 0 u
          else match escape? d u with
          | none => none
          | some (e, n) =>
            quotedFrom quote (text ++ [e]) (.spaces []) (column + 2 + n) (u.drop n)
      else quotedFrom quote (text ++ [c]) (.spaces []) (column + 1) t
termination_by t => t.length
decreasing_by all_goals (simp; try omega)

/-- A quoted scalar leaves no more text than there was. -/
theorem length_rest_quotedFrom_le {quote : Char} {text : Text} {gap : Gap} {column : Nat} {t : Text}
    {s : Scalar} (h : quotedFrom quote text gap column t = some s) : s.rest.length ≤ t.length := by
  fun_induction quotedFrom quote text gap column t <;> grind

/-! ### Block scalars -/

/-- What becomes of the line breaks at the end of a block scalar. -/
inductive Chomping where
  /-- All go. -/
  | strip
  /-- The first stays. -/
  | clip
  /-- All stay. -/
  | keep
deriving DecidableEq

/-- What the line with the indicator of a block scalar says of it. -/
structure BlockHeader where
  /-- Whether lines are kept apart. -/
  literal : Bool
  /-- What becomes of the line breaks at the end. -/
  chomping : Chomping := .clip
  /-- How much further right than what is around it the scalar stands, if that is said. -/
  increment : Option Nat := none
  /-- What follows the line. -/
  rest : Text

/-- What follows a line of which nothing is left but blanks and a comment. -/
def endOfHeader? (t : Text) : Option Text :=
  let u := t.dropWhile isSpace
  let u := if u.head? = some '#' then u.dropWhile fun c => !isBreak c else u
  match u with
  | [] => some []
  | c :: v => if isBreak c then some v else none

/-- Takes the chomping indicator that the header goes on with, if it does. -/
def BlockHeader.takeChomping (h : BlockHeader) : BlockHeader :=
  match h.rest with
  | '-' :: t => { h with chomping := .strip, rest := t }
  | '+' :: t => { h with chomping := .keep, rest := t }
  | _ => h

/-- Takes the indentation indicator that the header goes on with, if it does. -/
def BlockHeader.takeIncrement (h : BlockHeader) : BlockHeader :=
  match h.rest with
  | c :: t =>
    if '1' ≤ c ∧ c ≤ '9' then { h with increment := some (c.toNat - '0'.toNat), rest := t } else h
  | [] => h

/-- The header at the start of a text; its indicators can come in either order. -/
def header? (literal : Bool) (t : Text) : Option BlockHeader := do
  let h : BlockHeader := { literal := literal, rest := t }
  let chomped := h.takeChomping
  let h := if chomped.rest.length < t.length then chomped.takeIncrement
    else h.takeIncrement.takeChomping
  return { h with rest := ← endOfHeader? h.rest }

/-- The chomping indicator leaves no more text than there was. -/
theorem length_rest_takeChomping_le (h : BlockHeader) :
    h.takeChomping.rest.length ≤ h.rest.length := by
  rw [BlockHeader.takeChomping]
  split <;> simp_all

/-- The indentation indicator leaves no more text than there was. -/
theorem length_rest_takeIncrement_le (h : BlockHeader) :
    h.takeIncrement.rest.length ≤ h.rest.length := by
  rw [BlockHeader.takeIncrement]
  split
  · split <;> simp_all
  · simp

/-- The end of a header leaves no more text than there was. -/
theorem length_endOfHeader?_le {t u : Text} (h : endOfHeader? t = some u) :
    u.length ≤ t.length := by
  have h1 : (t.dropWhile isSpace).length ≤ t.length := (List.dropWhile_suffix _).length_le
  have h2 : ((t.dropWhile isSpace).dropWhile fun c => !isBreak c).length
      ≤ (t.dropWhile isSpace).length := (List.dropWhile_suffix _).length_le
  rw [endOfHeader?] at h
  grind

/-- A header leaves no more text than there was. -/
theorem length_rest_header?_le {literal : Bool} {t : Text} {h : BlockHeader}
    (hh : header? literal t = some h) : h.rest.length ≤ t.length := by
  simp only [header?, Option.pure_def, Option.bind_eq_bind, Option.bind_eq_some_iff] at hh
  obtain ⟨u, hu, hh⟩ := hh
  cases hh
  have hu := length_endOfHeader?_le hu
  refine Nat.le_trans hu ?_
  split
  · exact Nat.le_trans (length_rest_takeIncrement_le _) (length_rest_takeChomping_le _)
  · exact Nat.le_trans (length_rest_takeChomping_le _) (length_rest_takeIncrement_le _)

/-- The start of a line of a block scalar, after blank lines. -/
structure LineStart where
  /-- The farthest column that blanks have reached. -/
  farthest : Nat
  /-- The column. -/
  column : Nat
  /-- The breaks of the blank lines. -/
  breaks : Text
  /-- The text from here. -/
  rest : Text

/-- Goes over blank lines and the indentation of the line after them, up to the column `limit` if there
is such a limit. A tab is no indentation. -/
def lineStart? (limit : Option Nat) (farthest column : Nat) (breaks : Text) :
    Text → Option LineStart
  | [] => some ⟨max farthest column, column, breaks, []⟩
  | c :: t =>
    let indents := limit.all (column < ·)
    if c = ' ' ∧ indents then lineStart? limit farthest (column + 1) breaks t
    else if c = '\t' ∧ indents then none
    else if isBreak c then lineStart? limit (max farthest column) 0 (breaks ++ [c]) t
    else some ⟨max farthest column, column, breaks, c :: t⟩

/-- The start of a line leaves no more text than there was. -/
theorem length_rest_lineStart?_le {limit : Option Nat} {farthest column : Nat} {breaks t : Text}
    {l : LineStart} (h : lineStart? limit farthest column breaks t = some l) :
    l.rest.length ≤ t.length := by
  fun_induction lineStart? limit farthest column breaks t <;> grind

/-- What follows the line at the start of a text, the break at its end included. -/
def afterLine? (t : Text) : Option (Char × Text) :=
  match t.dropWhile fun c => !isBreak c with
  | [] => none
  | c :: u => some (c, u)

/-- A line that ends leaves less text to read. -/
theorem length_lt_of_afterLine {t u : Text} {c : Char} (h : afterLine? t = some (c, u)) :
    u.length < t.length := by
  have hd : (t.dropWhile fun c => !isBreak c).length ≤ t.length :=
    (List.dropWhile_suffix _).length_le
  rw [afterLine?] at h
  split at h
  · contradiction
  · next hc =>
    cases h
    rw [hc] at hd
    exact hd

/-- Reads the lines of a block scalar from the line that starts at `l`. Up to here the scalar is `text`
with the line break `last` after it; `indented` tells if the line before starts with a blank. -/
def blockFrom (h : BlockHeader) (indent : Nat) (text : Text) (last : Option Char) (indented : Bool)
    (l : LineStart) : Option Scalar :=
  if l.column = indent ∧ l.rest ≠ [] then
    let line := l.rest.takeWhile fun c => !isBreak c
    let blank := line.head?.any isSpace
    let folds := !h.literal ∧ last = some '\n' ∧ !indented ∧ !blank
    let join := if folds then (if l.breaks.isEmpty then [' '] else []) else last.toList
    let text := text ++ join ++ l.breaks ++ line
    match ha : afterLine? l.rest with
    | none => some ⟨text, [], indent + line.length, false⟩
    | some (b, t) =>
      match hs : lineStart? (some indent) 0 0 [] t with
      | none => none
      | some next =>
        have := Nat.lt_of_le_of_lt (length_rest_lineStart?_le hs) (length_lt_of_afterLine ha)
        blockFrom h indent text (some b) blank next
  else
    some {
      text := text ++ (if h.chomping = .strip then [] else last.toList) ++
        (if h.chomping = .keep then l.breaks else [])
      rest := l.rest
      column := l.column
      broken := true }
termination_by l.rest.length

/-- The lines of a block scalar leave no more text than there was. -/
theorem length_rest_blockFrom_le {h : BlockHeader} {indent : Nat} {text : Text} {last : Option Char}
    {indented : Bool} {l : LineStart} {s : Scalar}
    (hs : blockFrom h indent text last indented l = some s) : s.rest.length ≤ l.rest.length := by
  fun_induction blockFrom h indent text last indented l with
  | case1 => cases hs; simp
  | case2 => contradiction
  | case3 => have := ‹blockFrom _ _ _ _ _ _ = some s → _› hs; omega
  | case4 => cases hs; simp

/-- The block scalar with the given header, in a collection whose entries start left of `least`. -/
def block? (h : BlockHeader) (least : Nat) : Option Scalar := do
  let fixed := h.increment.map (least - 1 + ·)
  let l ← lineStart? fixed 0 0 [] h.rest
  let indent := fixed.getD (max l.farthest (max least 1))
  blockFrom h indent [] none false l

/-- A block scalar leaves no more text than there was behind its header. -/
theorem length_rest_block?_le {h : BlockHeader} {least : Nat} {s : Scalar}
    (hs : block? h least = some s) : s.rest.length ≤ h.rest.length := by
  simp only [block?, Option.bind_eq_bind, Option.bind_eq_some_iff] at hs
  obtain ⟨l, hl, hs⟩ := hs
  exact Nat.le_trans (length_rest_blockFrom_le hs) (length_rest_lineStart?_le hl)

end StyleBlocks.Yaml
