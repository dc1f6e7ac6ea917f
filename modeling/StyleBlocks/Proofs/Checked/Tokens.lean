import StyleBlocks.Proofs.Checked.Access
import StyleBlocks.Proofs.Sheet.TokenForm

/-!
# Tokens with checked access

Tokens are kept as a kind and a span, without their texts: whoever needs the text of a token cuts it out
of the style text. A slash that is a token by itself is looked behind for an asterisk, which would begin
a comment that has no end.

## Main results

* `Checked.tokenize_eq`: cutting tokens does not fault.
-/

namespace StyleBlocks.Checked

open Sheet

/-- A token without its text. -/
structure Spanned where
  /-- The kind. -/
  kind : TokenKind
  /-- The bytes. -/
  span : Span

/-- A token, its text forgotten. -/
def Spanned.ofToken (t : Token) : Spanned where
  kind := t.kind
  span := t.span

section

variable (source : Text) (lines : LineMap)

/-- Whether a token is the slash of a comment that has no end. -/
def opensComment (t : Spanned) : Option Bool :=
  if t.kind = .delimiter then do
    let behind ← tail t.span.stop source
    let text ← Text.slice? t.span.start t.span.stop source
    return behind.head? = some '*' && text = ['/']
  else some false

/-- The tokens of the source from an offset on. -/
def tokenizeFrom (o : Nat) : Option (Except ParseError (List Spanned)) := do
  match ← tail o source with
  | [] => return .ok []
  | c :: t =>
    let stop := o + Text.byteSize (Token.cut c t)
    match (Token.body c t).1 with
    | none =>
      let piece ← Text.slice? o stop source
      return .error (Token.errorFor piece (← position lines o))
    | some kind =>
      let token : Spanned := ⟨kind, o, stop⟩
      if ← opensComment source token then
        return .error (.unclosedComment (← position lines o))
      else if o < stop ∧ stop ≤ Text.byteSize source then
        let tokens ← tokenizeFrom stop
        return tokens.map (token :: ·)
      else none
termination_by Text.byteSize source - o

/-- The tokens of a text. -/
def tokenize : Option (Except ParseError (List Spanned)) :=
  tokenizeFrom source (LineMap.ofText source) 0

end

/-- No asterisk follows a slash that is a token by itself. -/
theorem head?_ne_asterisk {c : Char} {t : Text} (h : (Token.body c t).1 = some .delimiter)
    (hc : Token.cut c t = ['/']) : (Token.rest c t).head? ≠ some '*' := by
  obtain ⟨rfl, hnil⟩ : c = '/' ∧ (Token.body c t).2 = [] := by simpa [Token.cut] using hc
  rw [Token.rest, hnil, List.length_nil, List.drop_zero]
  intro hstar
  obtain ⟨u, rfl⟩ := List.head?_eq_some_iff.1 hstar
  rw [Token.body, if_neg (by decide)] at h
  cases hrun : Text.commentRun u <;> simp [hrun] at h

section

variable {source : Text} {lines : LineMap} {done rest : Text}

/-- **Looking behind a slash does not fault**, and no comment without an end is found there: that would
be one piece. -/
theorem opensComment_eq {c : Char} {t : Text} (hsource : source = done ++ c :: t) (kind : TokenKind)
    (hkind : (Token.body c t).1 = some kind) :
    opensComment source
      ⟨kind, Text.byteSize done, Text.byteSize (done ++ Token.cut c t)⟩ = some false := by
  rw [← Token.cut_append_rest c t, ← List.append_assoc] at hsource
  rw [opensComment]
  split
  · next hd =>
      have hd : kind = .delimiter := hd
      subst hd
      simp only [hsource, tail_append, Text.slice?_append, Option.bind_eq_bind, Option.bind_some,
        Option.pure_def, Option.some.injEq, Bool.and_eq_false_imp, decide_eq_true_eq,
        decide_eq_false_iff_not]
      exact fun hstar hslash => head?_ne_asterisk hkind hslash hstar
  · rfl

/-- **Cutting tokens does not fault**, from any place between them. -/
theorem tokenizeFrom_eq (hlines : IsAscending lines) {done rest : Text}
    (hsource : source = done ++ rest) :
    tokenizeFrom source lines (Text.byteSize done) =
      some ((Token.tokenizeFrom lines (Text.byteSize done) rest).map
        (List.map Spanned.ofToken)) := by
  rw [tokenizeFrom, tail_of_eq_append hsource]
  match rest with
  | [] => rw [Token.tokenizeFrom]; rfl
  | c :: t =>
      have hcut : source = (done ++ Token.cut c t) ++ Token.rest c t := by
        rw [hsource, List.append_assoc, Token.cut_append_rest]
      have hgoes := byteSize_lt_of_append hcut (List.cons_ne_nil _ _)
      have hopens := opensComment_eq hsource
      have hpiece := Text.slice?_append done (Token.cut c t) (Token.rest c t)
      rw [← hcut] at hpiece
      have hlt := Nat.lt_succ_of_le (Token.length_rest_le c t)
      have hnext := tokenizeFrom_eq hlines hcut
      rw [Token.tokenizeFrom]
      simp only [← Text.byteSize_append, Option.bind_eq_bind, Option.bind_some]
      cases hkind : (Token.body c t).1 with
      | none => simp only [hpiece, position_eq hlines, Option.bind_some]; rfl
      | some kind =>
          simp only [hopens kind hkind, if_pos hgoes, hnext, Option.bind_some]
          cases Token.tokenizeFrom lines (Text.byteSize (done ++ Token.cut c t)) (Token.rest c t) with
          | error e => rfl
          | ok ts =>
              simp only [Text.byteSize_append]
              rfl
termination_by rest.length
decreasing_by exact hlt

/-- **Cutting tokens does not fault.** -/
theorem tokenize_eq (source : Text) :
    tokenize source = some ((Token.tokenize source).map (List.map Spanned.ofToken)) :=
  tokenizeFrom_eq (isAscending_ofText source) (List.nil_append source).symm

end

end StyleBlocks.Checked
