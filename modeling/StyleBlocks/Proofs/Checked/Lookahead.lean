import StyleBlocks.Proofs.Checked.Tokens
import StyleBlocks.Proofs.Sheet.DeclarationValue

/-!
# Looking ahead with checked access

Parsing style text goes by the indices of tokens. Ahead of a statement, tokens are looked up one after the
other: up to what ends the statement, up to its colon, and from either end of a stretch up to the first
token that is not blank. Where lists of tokens are cut says what is found there.

## Main definitions

* `Checked.findStop`, `Checked.findColon`, `Checked.stopOfLast`, `Checked.coreOf`: looking ahead.
* `Checked.Cuts`: tokens that a source is made of.

## Main results

* `Checked.findStop_eq`, `Checked.findColon_eq`, `Checked.stopOfLast_eq`, `Checked.coreOf_eq`: looking
  ahead does not fault.
-/

namespace StyleBlocks.Checked

open Sheet

/-! ### Looking ahead -/

/-- The number of open parentheses and square brackets after a token, if there are `depth` before it. -/
def Spanned.depthAfter (t : Spanned) (depth : Nat) : Nat :=
  match t.kind with
  | .openParen | .openSquare => depth + 1
  | .closeParen | .closeSquare => depth - 1
  | _ => depth

/-- Whether a token ends a statement when it stands outside parentheses and square brackets. -/
def Spanned.endsStatement (t : Spanned) : Bool :=
  match t.kind with
  | .openCurly | .semicolon | .closeCurly => true
  | _ => false

/-- What ends a statement or the head of a block, by its index. -/
inductive Stop where
  /-- An opening brace. -/
  | brace (i : Nat)
  /-- A semicolon. -/
  | semicolon (i : Nat)
  /-- A closing brace, or the end. -/
  | outside (i : Nat)

/-- The index of what ends a statement. -/
def Stop.index : Stop → Nat
  | brace i | semicolon i | outside i => i

section

variable (tokens : List Spanned)

/-- The index of the first of `n` tokens from an index on that satisfies `p` outside parentheses and
square brackets, when `depth` of these are open. -/
def findOutside (p : Spanned → Bool) (depth i : Nat) : Nat → Option (Option Nat)
  | 0 => some none
  | n + 1 => do
    let t ← tokens[i]?
    if depth = 0 ∧ p t then return some i else findOutside p (t.depthAfter depth) (i + 1) n

/-- What ends the statement or the head of a block that goes on with the token at an index. -/
def findStop (first : Nat) : Option Stop := do
  match ← findOutside tokens Spanned.endsStatement 0 first (tokens.length - first) with
  | none => return .outside tokens.length
  | some i =>
    match (← tokens[i]?).kind with
    | .openCurly => return .brace i
    | .semicolon => return .semicolon i
    | _ => return .outside i

/-- The index of the colon between two indices that stands outside parentheses and square brackets, if
there is one. -/
def findColon (first last : Nat) : Option (Option Nat) :=
  findOutside tokens (fun t => t.kind = .colon) 0 first (last - first)

/-- The index of the first of `n` tokens from an index on that is not blank, if there is one. -/
def firstSolid (i : Nat) : Nat → Option (Option Nat)
  | 0 => some none
  | n + 1 => do
    let t ← tokens[i]?
    if t.kind = .space then firstSolid (i + 1) n else return some i

/-- The index of the last of `n` tokens from an index on that is not blank, if there is one. -/
def lastSolid (i : Nat) : Nat → Option (Option Nat)
  | 0 => some none
  | n + 1 => do
    let t ← tokens[i + n]?
    if t.kind = .space then lastSolid i n else return some (i + n)

/-- The end of the last token between two indices that is not blank, or `default` if all are. -/
def stopOfLast (first last default : Nat) : Option Nat := do
  match ← lastSolid tokens first (last - first) with
  | some i => return (← tokens[i]?).span.stop
  | none => return default

/-- Where tokens without the blanks around them stand. -/
structure Core where
  /-- The start of the first of them. -/
  start : Nat
  /-- The end of the last of them. -/
  stop : Nat
  /-- The index after the last of them. -/
  next : Nat

/-- Where the tokens between two indices stand without the blanks around them, if they are not all
blank. -/
def coreOf (first last : Nat) : Option (Option Core) := do
  match ← firstSolid tokens first (last - first), ← lastSolid tokens first (last - first) with
  | some i, some j => return some ⟨(← tokens[i]?).span.start, (← tokens[j]?).span.stop, j + 1⟩
  | _, _ => return none

end

/-! ### Tokens of a source -/

/-- The place behind some tokens. -/
def offset (done : List Token) : Nat :=
  Text.byteSize (Token.texts done)

/-- The tokens that a source is made of. -/
structure Cuts (source : Text) (all : List Token) : Prop where
  texts : Token.texts all = source
  tiled : Token.Tiled 0 all
  hasForm : ∀ k ∈ all, k.HasForm

/-- The tokens of a source cut it without gaps. -/
theorem cuts_of_tokenize {source : Text} {all : List Token} (h : Token.tokenize source = .ok all) :
    Cuts source all where
  texts := Token.texts_of_tokenize h
  tiled := Token.tiled_of_tokenize h
  hasForm _ := Token.hasForm_of_mem h

namespace Cuts

variable {source : Text} {all done ts rest : List Token} {t : Token} (h : Cuts source all)

include h

/-- A token starts at the place behind those in front of it. -/
theorem start_eq (hall : all = done ++ t :: rest) : t.start = offset done := by
  have htiled := h.tiled
  rw [hall, Token.tiled_append, Nat.zero_add] at htiled
  exact htiled.2.1

/-- A token ends at the place behind it and those in front of it. -/
theorem stop_eq (hall : all = done ++ t :: rest) : t.stop = offset (done ++ [t]) := by
  simp [Token.stop, h.start_eq hall, offset]

/-- **A cut between tokens** gives their texts. -/
theorem slice?_eq (hall : all = done ++ ts ++ rest) :
    Text.slice? (offset done) (offset (done ++ ts)) source = some (Token.texts ts) := by
  rw [← h.texts, hall]
  simpa [offset] using Text.slice?_append (Token.texts done) (Token.texts ts) (Token.texts rest)

/-- A token is cut out at its start and its end. -/
theorem slice?_token (hall : all = done ++ t :: rest) :
    Text.slice? t.start t.stop source = some t.text := by
  have hcut := h.slice?_eq (show all = done ++ [t] ++ rest by simpa using hall)
  rwa [← h.stop_eq hall, ← h.start_eq hall, Token.texts_cons, Token.texts_nil, List.append_nil] at hcut

/-- Stretches of tokens that follow each other are cut out one after the other. -/
theorem slice?_inTurn {xs ys zs : List Token} (hall : all = done ++ xs ++ ys ++ zs ++ rest) :
    Text.slice? (offset done) (offset (done ++ xs)) source = some (Token.texts xs) ∧
      Text.slice? (offset (done ++ xs)) (offset (done ++ xs ++ ys)) source = some (Token.texts ys) ∧
      Text.slice? (offset (done ++ xs ++ ys)) (offset (done ++ xs ++ ys ++ zs)) source =
        some (Token.texts zs) := by
  have hxs : all = done ++ xs ++ (ys ++ zs ++ rest) := by rw [hall]; simp only [List.append_assoc]
  have hys : all = (done ++ xs) ++ ys ++ (zs ++ rest) := by rw [hall]; simp only [List.append_assoc]
  exact ⟨h.slice?_eq hxs, h.slice?_eq hys, h.slice?_eq hall⟩

end Cuts

/-! ### Looking ahead does not fault -/

section

variable {all done inner rest ts : List Token} {t : Token}

/-- The token behind some others is at the index that counts these. -/
theorem getElem?_eq (hall : all = done ++ t :: rest) :
    (all.map Spanned.ofToken)[done.length]? = some (.ofToken t) := by
  simp [hall]

/-- Looking for a token outside parentheses and square brackets finds the place where the list is cut in
front of it. -/
theorem findOutside_eq (p : Spanned → Bool) (depth : Nat) (hall : all = done ++ inner ++ rest) :
    findOutside (all.map Spanned.ofToken) p depth done.length inner.length =
      some (match cutOutside (p ∘ Spanned.ofToken) depth inner with
        | (_, []) => none
        | (front, _ :: _) => some (done ++ front).length) := by
  induction inner generalizing depth done with
  | nil => rfl
  | cons t ts ih =>
      have hnext := ih (t.depthAfter depth) (show all = (done ++ [t]) ++ ts ++ rest by simp [hall])
      rw [List.length_append, List.length_singleton] at hnext
      rw [List.length_cons, findOutside, getElem?_eq (by simpa using hall), cutOutside]
      simp only [Option.bind_eq_bind, Option.bind_some, Function.comp_apply]
      split
      · simp
      · have hdepth : (Spanned.ofToken t).depthAfter depth = t.depthAfter depth := rfl
        rw [hdepth, hnext]
        rcases h : cutOutside (p ∘ Spanned.ofToken) (t.depthAfter depth) ts with ⟨front, _ | _⟩ <;>
          simp

/-- What ends a statement, if it stands at an index. -/
def Stop.ofEnding (i : Nat) : Ending → Stop
  | .brace _ _ => .brace i
  | .semicolon _ _ => .semicolon i
  | .outside _ => .outside i

/-- What ends a statement keeps its index. -/
@[simp] theorem Stop.index_ofEnding (i : Nat) (e : Ending) : (Stop.ofEnding i e).index = i := by
  cases e <;> rfl

/-- **What ends a statement is found without a fault.** -/
theorem findStop_eq (hall : all = done ++ ts) :
    findStop (all.map Spanned.ofToken) done.length =
      some (.ofEnding (done ++ (cutOutside Token.endsStatement 0 ts).1).length
        (.ofTokens (cutOutside Token.endsStatement 0 ts).2)) := by
  have hlength : (all.map Spanned.ofToken).length - done.length = ts.length := by simp [hall]
  have hall' : all = done ++ ts ++ [] := hall.trans (List.append_nil _).symm
  have hfind := findOutside_eq Spanned.endsStatement 0 hall'
  have hp : Spanned.endsStatement ∘ Spanned.ofToken = Token.endsStatement := rfl
  have hcut := cutOutside_append Token.endsStatement 0 ts
  rw [findStop, hlength, hfind, hp]
  generalize cutOutside Token.endsStatement 0 ts = cut at hcut ⊢
  obtain ⟨front, _ | ⟨u, us⟩⟩ := cut
  · obtain rfl : front = ts := by simpa using hcut
    simp [hall, Ending.ofTokens, Stop.ofEnding]
  · have hget : (all.map Spanned.ofToken)[(done ++ front).length]? = some (.ofToken u) :=
      getElem?_eq (show all = (done ++ front) ++ u :: us by rw [hall, ← hcut, List.append_assoc])
    simp only [Option.bind_eq_bind, Option.bind_some, hget, Ending.ofTokens, Spanned.ofToken]
    split <;> simp_all [Stop.ofEnding]

/-- **A colon is looked for without a fault.** -/
theorem findColon_eq (hall : all = done ++ inner ++ rest) :
    findColon (all.map Spanned.ofToken) done.length (done ++ inner).length =
      some (match cutOutside (fun u => u.kind = .colon) 0 inner with
        | (_, []) => none
        | (left, _ :: _) => some (done ++ left).length) := by
  have hlength : (done ++ inner).length - done.length = inner.length := by simp
  rw [findColon, hlength]
  exact findOutside_eq (fun t => t.kind = .colon) 0 hall

/-- Behind blanks, the first token that is not blank is found. -/
theorem firstSolid_eq {front : List Token} (hfront : ∀ k ∈ front, k.isSpace = true)
    (hts : ∀ k ∈ ts.head?, k.isSpace = false) (hall : all = done ++ (front ++ ts) ++ rest) :
    firstSolid (all.map Spanned.ofToken) done.length (front ++ ts).length =
      some (if ts = [] then none else some (done ++ front).length) := by
  induction front generalizing done with
  | nil =>
      cases ts with
      | nil => rfl
      | cons t ts =>
          have ht : (Spanned.ofToken t).kind ≠ .space := by
            simpa [Token.isSpace, Spanned.ofToken] using hts
          rw [List.nil_append, List.length_cons, firstSolid, getElem?_eq (by simpa using hall)]
          simp [ht]
  | cons u front ih =>
      obtain ⟨hu, hfront⟩ := List.forall_mem_cons.1 hfront
      have hu : (Spanned.ofToken u).kind = .space := Token.kind_of_isSpace hu
      have hnext := ih hfront (show all = (done ++ [u]) ++ (front ++ ts) ++ rest by simp [hall])
      rw [List.length_append, List.length_singleton] at hnext
      rw [List.cons_append, List.length_cons, firstSolid, getElem?_eq (by simpa using hall)]
      simp only [Option.bind_eq_bind, Option.bind_some, hu, if_true, hnext]
      simp

/-- In front of blanks, the last token that is not blank is found. -/
theorem lastSolid_eq {core back : List Token} (hcore : core = [] ∨ Token.EndsSolid core)
    (hback : ∀ k ∈ back, k.isSpace = true) (hall : all = done ++ (core ++ back) ++ rest) :
    lastSolid (all.map Spanned.ofToken) done.length (core ++ back).length =
      some (if core = [] then none else some ((done ++ core).length - 1)) := by
  induction back using List.reverseRecOn generalizing rest with
  | nil =>
      rcases hcore with rfl | ⟨us, u, rfl, hu⟩
      · rfl
      · have hget : (all.map Spanned.ofToken)[done.length + us.length]? = some (.ofToken u) := by
          rw [← List.length_append]
          exact getElem?_eq (by simpa using hall)
        have hu : (Spanned.ofToken u).kind ≠ .space := by
          simpa [Token.isSpace, Spanned.ofToken] using hu
        rw [List.append_nil, List.length_append, List.length_singleton, lastSolid, hget]
        simp [hu]
  | append_singleton back u ih =>
      have hu : (Spanned.ofToken u).kind = .space := Token.kind_of_isSpace (hback u (by simp))
      have hget : (all.map Spanned.ofToken)[done.length + (core ++ back).length]? =
          some (.ofToken u) := by
        rw [← List.length_append]
        exact getElem?_eq (by simpa using hall)
      have hnext := ih (fun k hk => hback k (by simp [hk]))
        (show all = done ++ (core ++ back) ++ u :: rest by simp [hall])
      rw [← List.append_assoc, List.length_append, List.length_singleton, lastSolid, hget]
      simp only [Option.bind_eq_bind, Option.bind_some, hu, if_true, hnext]

variable {source : Text} {front core back : List Token}

/-- Some tokens end where the last of them does. -/
theorem Cuts.exists_last (h : Cuts source all) (hne : core ≠ []) (hall : all = done ++ core ++ rest) :
    ∃ us u, core = us ++ [u] ∧ all = (done ++ us) ++ u :: rest ∧ u.stop = offset (done ++ core) := by
  obtain ⟨us, u, rfl⟩ : ∃ us u, core = us ++ [u] := by
    simpa using (List.eq_nil_or_concat core).resolve_left hne
  have hu : all = (done ++ us) ++ u :: rest := by simp [hall]
  exact ⟨us, u, rfl, hu, by rw [h.stop_eq hu, List.append_assoc]⟩

/-- The last of some tokens is found by its index, and ends at the place behind them. -/
theorem Cuts.getElem?_last (h : Cuts source all) (hne : core ≠ []) (hall : all = done ++ core ++ rest) :
    ∃ u : Token, (all.map Spanned.ofToken)[(done ++ core).length - 1]? = some (.ofToken u) ∧
      u.stop = offset (done ++ core) := by
  obtain ⟨us, u, rfl, hu, hstop⟩ := h.exists_last hne hall
  exact ⟨u, by simpa using getElem?_eq hu, hstop⟩

/-- The last of some tokens ends at the place behind them. -/
theorem Cuts.stop_getLast? (h : Cuts source all) (hne : core ≠ []) (hall : all = done ++ core ++ rest) :
    core.getLast?.map Token.stop = some (offset (done ++ core)) := by
  obtain ⟨us, u, rfl, hu, hstop⟩ := h.exists_last hne hall
  rw [← hstop, List.getLast?_concat, Option.map_some]

/-- The end of tokens in front of blanks is found. -/
theorem stopOfLast_append (h : Cuts source all) (hcore : core = [] ∨ Token.EndsSolid core)
    (hback : ∀ k ∈ back, k.isSpace = true) (hall : all = done ++ (core ++ back) ++ rest)
    (default : Nat) :
    stopOfLast (all.map Spanned.ofToken) done.length (done ++ (core ++ back)).length default =
      some (if core = [] then default else offset (done ++ core)) := by
  have hlength : (done ++ (core ++ back)).length - done.length = (core ++ back).length := by simp
  rw [stopOfLast, hlength, lastSolid_eq hcore hback hall]
  split
  · rfl
  · next hne =>
      obtain ⟨u, hget, hu⟩ := h.getElem?_last hne
        (show all = done ++ core ++ (back ++ rest) by simp [hall])
      simp only [Option.bind_eq_bind, Option.bind_some, hget]
      exact congrArg some hu

/-- Tokens between blanks are found. -/
theorem coreOf_append (h : Cuts source all) (hfront : ∀ k ∈ front, k.isSpace = true)
    (hcore : Solid core) (hback : ∀ k ∈ back, k.isSpace = true)
    (hall : all = done ++ (front ++ core ++ back) ++ rest) :
    coreOf (all.map Spanned.ofToken) done.length (done ++ (front ++ core ++ back)).length =
      some (some ⟨offset (done ++ front), offset (done ++ front ++ core),
        (done ++ front ++ core).length⟩) := by
  have hlength : (done ++ (front ++ core ++ back)).length - done.length =
      (front ++ core ++ back).length := by simp
  obtain ⟨v, vs, hv, hspace⟩ := hcore.first
  have hne : core ≠ [] := by simp [hv]
  have hall' : all = done ++ (front ++ (core ++ back)) ++ rest := by simp [hall]
  have hfirst := firstSolid_eq hfront (by simpa [hv] using hspace) hall'
  rw [← List.append_assoc, if_neg (by simp [hne])] at hfirst
  have hlast := lastSolid_eq (Or.inr (hcore.last.append front)) hback hall
  rw [if_neg (by simp [hne])] at hlast
  -- The first and the last of the tokens are looked up.
  have hv : all = (done ++ front) ++ v :: (vs ++ back ++ rest) := by simp [hall, hv]
  obtain ⟨u, hlook, hu⟩ := h.getElem?_last (by simp [hne])
    (show all = done ++ (front ++ core) ++ (back ++ rest) by simp [hall])
  rw [← List.append_assoc] at hu hlook hlast
  have hpos : 0 < (done ++ front ++ core).length :=
    List.length_pos_iff.2 (by simp [hne])
  simp only [coreOf, hlength, hfirst, hlast, getElem?_eq hv, hlook, Option.bind_eq_bind,
    Option.bind_some, Nat.sub_add_cancel hpos]
  change some (some (Core.mk v.start u.stop _)) = _
  rw [h.start_eq hv, hu]

/-- Nothing is found among blanks. -/
theorem coreOf_spaces (hback : ∀ k ∈ back, k.isSpace = true) (hall : all = done ++ back ++ rest) :
    coreOf (all.map Spanned.ofToken) done.length (done ++ back).length = some none := by
  have hlength : (done ++ back).length - done.length = back.length := by simp
  have hall' : all = done ++ (back ++ []) ++ rest := by rw [hall, List.append_nil]
  have hfirst := firstSolid_eq hback (by simp) hall'
  have hlast := lastSolid_eq (Or.inl rfl) hback (show all = done ++ ([] ++ back) ++ rest from hall)
  rw [List.append_nil] at hfirst
  rw [List.nil_append] at hlast
  simp only [coreOf, hlength, hfirst, hlast, if_true, Option.bind_eq_bind, Option.bind_some]
  rfl

/-- **The end of the last token that is not blank is found without a fault.** -/
theorem stopOfLast_eq (h : Cuts source all) (hall : all = done ++ inner ++ rest) (default : Nat) :
    stopOfLast (all.map Spanned.ofToken) done.length (done ++ inner).length default =
      some (if (cutBlanks inner).1 = [] then default else offset (done ++ (cutBlanks inner).1)) := by
  have hcut : all = done ++ ((cutBlanks inner).1 ++ (cutBlanks inner).2) ++ rest := by
    rw [cutBlanks_append, hall]
  have hfound := stopOfLast_append h (or_iff_not_imp_left.2 endsSolid_cutBlanks)
    (fun _ => isSpace_of_mem_cutBlanks) hcut default
  rwa [cutBlanks_append] at hfound

/-- **Tokens without the blanks around them are found without a fault.** -/
theorem coreOf_eq (h : Cuts source all) (hall : all = done ++ inner ++ rest) :
    coreOf (all.map Spanned.ofToken) done.length (done ++ inner).length =
      some (if (trimBlanks inner).core = [] then none else
        some ⟨offset (done ++ (trimBlanks inner).front),
          offset (done ++ (trimBlanks inner).front ++ (trimBlanks inner).core),
          (done ++ (trimBlanks inner).front ++ (trimBlanks inner).core).length⟩) := by
  have hcut := trimBlanks_append inner
  have hback : ∀ k ∈ (trimBlanks inner).back, k.isSpace = true := fun _ => isSpace_of_mem_back
  split
  · next hcore =>
      rw [front_eq_nil_of_core_eq_nil hcore, hcore, List.nil_append, List.nil_append] at hcut
      rw [hcut] at hback
      exact coreOf_spaces hback hall
  · next hcore =>
      have hfront : ∀ k ∈ (trimBlanks inner).front, k.isSpace = true := fun k hk =>
        List.all_eq_true.1 List.all_takeWhile k hk
      rw [← hcut] at hall
      have hfound := coreOf_append h hfront (solid_core_trimBlanks hcore) hback hall
      rwa [hcut] at hfound

end

end StyleBlocks.Checked
