import StyleBlocks.Proofs.Checked.Statements
import StyleBlocks.Proofs.Sheet.DialectOrder

/-!
# Parsing with checked access

A style sheet is parsed from the first of its tokens on, by the index of the token that parsing has come to.
That index is never beyond the end, and it is the end where the tokens are used up.

## Main results

* `Checked.step_eq`: a step of parsing does not fault.
* `Checked.run_eq`: parsing does not fault, from any token on.
* `Checked.parseSheet_eq`: parsing a style sheet does not fault.
-/

namespace StyleBlocks.Checked

open Sheet

/-! ### Parsing -/

section

variable (g : Grammar) (source : Text) (lines : LineMap) (tokens : List Spanned)

/-- The node that a block becomes when its body is complete and its brace closes at the offset `stop`. -/
def closeBlock (b : OpenBlock) (body : Body) (stop : Nat) : Option Node := do
  let place ← range lines ⟨b.start, stop⟩
  let after := some body.pending
  match b.head with
  | .rule h =>
    let head := { h with after := after, semicolon := body.semicolon, source := some place }
    return .rule head body.nodes.reverse
  | .atRule h =>
    let head := { h with after := after, semicolon := body.semicolon, source := some place }
    return .atRule head body.nodes.reverse

/-- Reads what the token at an index begins, and gives the index at which to go on. -/
def step (p : Parse) (i : Nat) (t : Spanned) : Option (Except ParseError (Parse × Nat)) := do
  match t.kind with
  | .space | .semicolon =>
    let text ← Text.slice? t.span.start t.span.stop source
    return .ok ({ p with body := { p.body with pending := p.body.pending ++ text } }, i + 1)
  | .closeCurly =>
    match p.blocks with
    | [] => return .error (.unexpectedClose (← position lines t.span.start))
    | b :: bs =>
      let node ← closeBlock lines b p.body t.span.stop
      return .ok (Parse.push node false { body := { nodes := b.siblings }, blocks := bs }, i + 1)
  | _ =>
    let read ← readStatement g source lines tokens p.body.pending i t
    return read.map fun r => (p.accept r.statement, r.next)

/-- Reads all the tokens from an index on. -/
def run (p : Parse) (i : Nat) : Option (Except ParseError Body) := do
  match tokens[i]? with
  | none =>
    match p.blocks with
    | [] => return .ok p.body
    | b :: _ => return .error (.unclosedBlock (← position lines b.brace))
  | some t =>
    match ← step g source lines tokens p i t with
    | .error e => return .error e
    | .ok q => if i < q.2 ∧ q.2 ≤ tokens.length then run q.1 q.2 else none
termination_by tokens.length - i

end

/-- The style sheet that a text denotes in a grammar. -/
def parseSheet (g : Grammar) (source : Text) : Option (Except ParseError Root) := do
  match ← tokenize source with
  | .error e => return .error e
  | .ok tokens =>
    let lines := LineMap.ofText source
    match ← run g source lines tokens {} 0 with
    | .error e => return .error e
    | .ok body =>
      return .ok {
        nodes := body.nodes.reverse
        after := some body.pending
        semicolon := body.semicolon
        source := some (← range lines ⟨0, Text.byteSize source⟩) }

/-! ### Parsing does not fault -/

section

variable {g : Grammar} {source : Text} {lines : LineMap} {all done rest ts : List Token} {t : Token}
  {p : Parse}

/-- A block is closed without a fault. -/
theorem closeBlock_eq (hlines : IsAscending lines) (b : OpenBlock) (body : Body) (stop : Nat) :
    closeBlock lines b body stop = some (b.close lines body stop) := by
  obtain ⟨head, start, brace, siblings⟩ := b
  cases head <;> simp [closeBlock, OpenBlock.close, range_eq hlines]

/-- **A step of parsing does not fault.** -/
theorem step_eq (h : Cuts source all) (hlines : IsAscending lines) (hall : all = done ++ t :: ts) :
    step g source lines (all.map Spanned.ofToken) p done.length (.ofToken t) =
      some ((p.step g lines t ts).map fun q => (q.1, all.length - q.2.length)) := by
  have hkind : (Spanned.ofToken t).kind = t.kind := rfl
  have htext := h.slice?_token hall
  have hread : t.isSpace = false →
      (do
        let read ← readStatement g source lines (all.map Spanned.ofToken) p.body.pending done.length
          (.ofToken t)
        return read.map fun r => (p.accept r.statement, r.next)) =
      some (((Sheet.readStatement g lines p.body.pending t ts).map fun r =>
        (p.accept r.statement, r.rest)).map fun q => (q.1, all.length - q.2.length)) := by
    intro ht
    rw [readStatement_eq _ h hlines ht hall]
    cases Sheet.readStatement g lines p.body.pending t ts <;> rfl
  simp only [step, Parse.step, hkind, Spanned.span_ofToken, htext, position_eq hlines,
    closeBlock_eq hlines, Option.bind_eq_bind, Option.bind_some]
  cases hk : t.kind with
  | space | semicolon => simp [Except.map, length_sub_of_cons hall]
  | closeCurly => cases p.blocks <;> simp [Except.map, length_sub_of_cons hall]
  | _ => exact hread (by simp [Token.isSpace, hk])

/-- **Parsing does not fault**, from any token on. -/
theorem run_eq {p : Parse} {done rest : List Token} (h : Cuts source all) (hlines : IsAscending lines)
    (hall : all = done ++ rest) :
    run g source lines (all.map Spanned.ofToken) p done.length = some (p.run g lines rest) := by
  rw [run]
  match rest with
  | [] =>
      have hnone : (all.map Spanned.ofToken)[done.length]? = none := by simp [hall]
      simp only [hnone, Parse.run, position_eq hlines]
      cases p.blocks <;> rfl
  | t :: ts =>
      rw [Parse.run_cons]
      simp only [getElem?_eq hall, step_eq h hlines hall, Option.bind_eq_bind, Option.bind_some]
      cases hq : p.step g lines t ts with
      | error e => rfl
      | ok q =>
          obtain ⟨used, hused⟩ := Parse.snd_step_suffix hq
          have hlt := Nat.lt_succ_of_le (Parse.length_snd_step_le hq)
          have hnext : all = (done ++ t :: used) ++ q.2 := by simp [hall, ← hused]
          have hgoes : done.length < (done ++ t :: used).length ∧
              (done ++ t :: used).length ≤ (all.map Spanned.ofToken).length := by
            simp [hnext]
          have hrun := run_eq (p := q.1) h hlines hnext
          rw [← length_sub_of_append hnext] at hgoes hrun
          exact (if_pos hgoes).trans hrun
termination_by rest.length
decreasing_by exact hlt

end

/-- **Parsing a style sheet does not fault.** -/
theorem parseSheet_eq (g : Grammar) (source : Text) :
    parseSheet g source = some (Sheet.parse g source) := by
  rw [parseSheet, Sheet.parse, tokenize_eq]
  cases htokens : Token.tokenize source with
  | error e => rfl
  | ok tokens =>
      have hrun := run_eq (g := g) (p := {}) (cuts_of_tokenize htokens) (isAscending_ofText source)
        (List.nil_append tokens).symm
      rw [List.length_nil] at hrun
      simp only [Except.map, Option.bind_eq_bind, Option.bind_some, hrun,
        range_eq (isAscending_ofText source)]
      cases hbody : Parse.run g (LineMap.ofText source) {} tokens <;>
        simp [hbody, bind, Except.bind, pure, Except.pure]

end StyleBlocks.Checked
