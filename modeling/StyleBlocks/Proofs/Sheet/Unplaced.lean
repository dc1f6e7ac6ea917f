import StyleBlocks.Proofs.Sheet.StatementForm
import StyleBlocks.Proofs.Sheet.TokenSeams
import StyleBlocks.Sheet.Parse

/-!
# Parsing without places

Places go through the parser from the tokens to the nodes and the errors, and decide nothing on the
way. `unplaced` forgets them. What is parsed of tokens that differ in their places only differs in its
places only, whichever text the places are in. Nor do older nodes decide anything: a style sheet that
goes on behind some nodes is the nodes and what is left, parsed by itself.

## Main results

* `Parse.run_congr`: tokens that differ in their places only are parsed to nodes that do.
* `Parse.run_onto`: what has been read stays in front of what is read.
-/

namespace StyleBlocks.Sheet

open Token (texts)

/-! ### Forgetting places -/

/-- A token without its place. -/
def Token.unplaced (t : Token) : Token :=
  { t with start := 0 }

mutual

/-- A node and the nodes below it without their places. -/
def Node.unplaced : Node → Node
  | .rule h ns => .rule { h with source := none } (Node.unplacedAll ns)
  | .atRule h ns => .atRule { h with source := none } (Node.unplacedAll ns)
  | .atStatement h => .atStatement { h with source := none }
  | .declaration d => .declaration { d with source := none }
  | .comment c => .comment { c with source := none }

/-- Nodes and the nodes below them without their places. -/
def Node.unplacedAll : List Node → List Node
  | [] => []
  | n :: ns => n.unplaced :: Node.unplacedAll ns

end

/-- The head of a block without its place. -/
def Head.unplaced : Head → Head
  | .rule h => .rule { h with source := none }
  | .atRule h => .atRule { h with source := none }

/-- A statement without its places. -/
def Statement.unplaced : Statement → Statement
  | .opening head _ _ => .opening head.unplaced 0 0
  | .whole n terminated => .whole n.unplaced terminated

/-- A statement and the tokens after it without their places. -/
def Read.unplaced (r : Read) : Read :=
  ⟨r.statement.unplaced, r.rest.map Token.unplaced⟩

/-- What ends a statement without its places. -/
def Ending.unplaced : Ending → Ending
  | .brace t rest => .brace t.unplaced (rest.map Token.unplaced)
  | .semicolon t rest => .semicolon t.unplaced (rest.map Token.unplaced)
  | .outside rest => .outside (rest.map Token.unplaced)

/-- An open block without its places. -/
def OpenBlock.unplaced (b : OpenBlock) : OpenBlock :=
  ⟨b.head.unplaced, 0, 0, Node.unplacedAll b.siblings⟩

/-- What has been read of a block without its places. -/
def Body.unplaced (b : Body) : Body :=
  { b with nodes := Node.unplacedAll b.nodes }

/-- How far parsing has come, without places. -/
def Parse.unplaced (p : Parse) : Parse :=
  ⟨p.body.unplaced, p.blocks.map OpenBlock.unplaced⟩

/-- An error without its position. -/
def ParseError.unplaced : ParseError → ParseError
  | .unclosedBlock _ => .unclosedBlock ⟨0, 0⟩
  | .unexpectedClose _ => .unexpectedClose ⟨0, 0⟩
  | .unknownWord w _ => .unknownWord w ⟨0, 0⟩
  | .unclosedComment _ => .unclosedComment ⟨0, 0⟩
  | .unclosedString _ => .unclosedString ⟨0, 0⟩
  | .unexpectedText t _ => .unexpectedText t ⟨0, 0⟩

/-- A result of parsing without its places, if `f` forgets those of a value. -/
def unplacedWith {α : Type} (f : α → α) : Except ParseError α → Except ParseError α
  | .ok a => .ok (f a)
  | .error e => .error e.unplaced

section

variable {g : Grammar} {lines lines' : LineMap} {before : Text} {t : Token} {ts : List Token}

/-- The kind of a token does not depend on its place. -/
@[simp] theorem Token.kind_unplaced (t : Token) : t.unplaced.kind = t.kind := rfl

/-- The text of a token does not depend on its place. -/
@[simp] theorem Token.text_unplaced (t : Token) : t.unplaced.text = t.text := rfl

/-- A token is blank wherever it stands. -/
@[simp] theorem Token.isSpace_unplaced (t : Token) : t.unplaced.isSpace = t.isSpace := rfl

/-- Forgetting the place of a token twice is forgetting it once. -/
@[simp] theorem Token.unplaced_unplaced (t : Token) : t.unplaced.unplaced = t.unplaced := rfl

@[simp] theorem Token.unplaced_comp_unplaced :
    Token.unplaced ∘ Token.unplaced = Token.unplaced := rfl

/-- The texts of tokens do not depend on their places. -/
@[simp] theorem Token.texts_unplaced (ts : List Token) : texts (ts.map Token.unplaced) = texts ts := by
  induction ts with
  | nil => rfl
  | cons t ts ih => simp [ih]

/-- Nodes lose their places one by one. -/
theorem Node.unplacedAll_eq_map (ns : List Node) : Node.unplacedAll ns = ns.map Node.unplaced := by
  induction ns with
  | nil => rfl
  | cons n ns ih => rw [Node.unplacedAll, ih, List.map_cons]

/-- Results that differ in their places only still do so when what goes on from them does not depend
on places. -/
theorem unplacedWith_bind {α β : Type} {f : α → α} {f' : β → β} {h h' : α → Except ParseError β}
    (hf : ∀ a b, f a = f b → unplacedWith f' (h a) = unplacedWith f' (h' b))
    {r r' : Except ParseError α} (hr : unplacedWith f r = unplacedWith f r') :
    unplacedWith f' (r.bind h) = unplacedWith f' (r'.bind h') := by
  cases r with
  | error e =>
      cases r' with
      | error e' => exact congrArg Except.error (Except.error.inj hr)
      | ok b => simp [unplacedWith] at hr
  | ok a =>
      cases r' with
      | error e => simp [unplacedWith] at hr
      | ok b => exact hf a b (Except.ok.inj hr)

/-- Results that differ in their places only still do so when they are mapped alike. -/
theorem unplacedWith_map {α β : Type} {f : α → α} {f' : β → β} {h h' : α → β}
    (hf : ∀ a b, f a = f b → f' (h a) = f' (h' b)) {r r' : Except ParseError α}
    (hr : unplacedWith f r = unplacedWith f r') :
    unplacedWith f' (r.map h) = unplacedWith f' (r'.map h') := by
  have hbind : ∀ (k : α → β) (r : Except ParseError α), r.map k = r.bind (.ok ∘ k) := by
    rintro k (e | a) <;> rfl
  rw [hbind, hbind]
  exact unplacedWith_bind (fun a b hab => by simp [unplacedWith, hf a b hab]) hr

/-! ### Cuts -/

/-- Tokens are cut in front of the same one wherever they stand, if the property does not depend on
places. -/
theorem cutOutside_unplaced {p : Token → Bool} (hp : ∀ t, p (Token.unplaced t) = p t) (depth : Nat)
    (ts : List Token) :
    cutOutside p depth (ts.map Token.unplaced) =
      ((cutOutside p depth ts).1.map Token.unplaced, (cutOutside p depth ts).2.map Token.unplaced) := by
  induction ts generalizing depth with
  | nil => rfl
  | cons t ts ih =>
      have hdepth : t.unplaced.depthAfter depth = t.depthAfter depth := rfl
      rw [List.map_cons, cutOutside, cutOutside, hp, ih, hdepth]
      split <;> rfl

/-- Blanks are cut off the front of tokens wherever these stand. -/
theorem cutBlanks_unplaced (ts : List Token) :
    cutBlanks (ts.map Token.unplaced) =
      ((cutBlanks ts).1.map Token.unplaced, (cutBlanks ts).2.map Token.unplaced) := by
  induction ts with
  | nil => rfl
  | cons t ts ih =>
      rw [List.map_cons, cutBlanks, cutBlanks, ih]
      rcases cutBlanks ts with ⟨core, gap⟩
      cases core with
      | nil => cases h : t.isSpace <;> simp [h]
      | cons u core => rfl

/-- Tokens are trimmed wherever they stand. -/
theorem trimBlanks_unplaced (ts : List Token) :
    trimBlanks (ts.map Token.unplaced) =
      ⟨(trimBlanks ts).front.map Token.unplaced, (trimBlanks ts).core.map Token.unplaced,
        (trimBlanks ts).back.map Token.unplaced⟩ := by
  have hspace : Token.isSpace ∘ Token.unplaced = Token.isSpace := rfl
  simp only [trimBlanks, cutBlanks_unplaced, List.takeWhile_map, List.dropWhile_map, hspace]

/-- What ends a statement is told wherever the tokens stand. -/
theorem ofTokens_unplaced (ts : List Token) :
    Ending.ofTokens (ts.map Token.unplaced) = (Ending.ofTokens ts).unplaced := by
  cases ts with
  | nil => rfl
  | cons t ts =>
      simp only [List.map_cons, Ending.ofTokens, Token.kind_unplaced]
      split <;> rfl

/-! ### Statements -/

/-- A declaration that is read says the same wherever its tokens stand. -/
theorem readDeclaration_unplaced (lines lines' : LineMap) (before : Text) (start start' : Nat)
    (left : List Token) (colon : Token) (right : List Token) (ending : Ending) :
    (readDeclaration lines' before start' (left.map Token.unplaced) colon.unplaced
        (right.map Token.unplaced) ending.unplaced).unplaced =
      (readDeclaration lines before start left colon right ending).unplaced := by
  cases ending with
  | brace u rest | outside rest =>
      simp [readDeclaration, Ending.unplaced, cutBlanks_unplaced, trimBlanks_unplaced,
        Read.unplaced, Statement.unplaced, Node.unplaced]
  | semicolon u rest =>
      simp only [readDeclaration, Ending.unplaced, cutBlanks_unplaced, trimBlanks_unplaced,
        List.isEmpty_map]
      split <;> simp [Read.unplaced, Statement.unplaced, Node.unplaced]

/-- An at-rule that is read says the same wherever its tokens stand. -/
theorem readAtRule_unplaced (lines lines' : LineMap) (before : Text) (t : Token)
    (inner : List Token) (ending : Ending) :
    (readAtRule lines' before t.unplaced (inner.map Token.unplaced) ending.unplaced).unplaced =
      (readAtRule lines before t inner ending).unplaced := by
  cases ending <;>
    simp [readAtRule, Ending.unplaced, trimBlanks_unplaced, Read.unplaced, Statement.unplaced,
      Node.unplaced, Head.unplaced]

/-- A rule or declaration is read alike wherever its tokens stand. -/
theorem readRuleOrDeclaration_unplaced (g : Grammar) (lines lines' : LineMap) (before : Text)
    (t : Token) (inner : List Token) (ending : Ending) :
    unplacedWith Read.unplaced (readRuleOrDeclaration g lines' before t.unplaced
        (inner.map Token.unplaced) ending.unplaced) =
      unplacedWith Read.unplaced (readRuleOrDeclaration g lines before t inner ending) := by
  have hcolon := cutOutside_unplaced (p := fun u => u.kind = .colon) (fun _ => rfl) 0 inner
  cases ending with
  | brace u rest =>
      simp [readRuleOrDeclaration, Ending.unplaced, cutBlanks_unplaced, unplacedWith,
        Read.unplaced, Statement.unplaced, Head.unplaced]
  | semicolon u rest =>
      simp only [readRuleOrDeclaration, Ending.unplaced, hcolon]
      rcases cutOutside (fun u => decide (u.kind = .colon)) 0 inner with ⟨left, _ | ⟨colon, right⟩⟩
      · cases g.bareStatements <;>
          simp [cutBlanks_unplaced, unplacedWith, ParseError.unplaced, Read.unplaced,
            Statement.unplaced, Node.unplaced, Node.unplacedAll]
      · exact congrArg Except.ok
          (readDeclaration_unplaced lines lines' before _ _ left colon right (.semicolon u rest))
  | outside rest =>
      simp only [readRuleOrDeclaration, Ending.unplaced, hcolon]
      rcases cutOutside (fun u => decide (u.kind = .colon)) 0 inner with ⟨left, _ | ⟨colon, right⟩⟩
      · simp [unplacedWith, ParseError.unplaced]
      · exact congrArg Except.ok
          (readDeclaration_unplaced lines lines' before _ _ left colon right (.outside rest))

/-- Statements without their places are read off tokens without theirs. -/
theorem readStatement_unplaced (g : Grammar) (lines lines' : LineMap) (before : Text) (t : Token)
    (ts : List Token) :
    unplacedWith Read.unplaced (readStatement g lines' before t.unplaced (ts.map Token.unplaced)) =
      unplacedWith Read.unplaced (readStatement g lines before t ts) := by
  have hends : ∀ u, Token.endsStatement (Token.unplaced u) = Token.endsStatement u := fun _ => rfl
  have hcomment : ∀ inline back, (readComment lines' before inline back t.unplaced
      (ts.map Token.unplaced)).unplaced = (readComment lines before inline back t ts).unplaced := by
    intro inline back
    simp [readComment, Read.unplaced, Statement.unplaced, Node.unplaced]
  simp only [readStatement, Token.kind_unplaced]
  split
  · exact congrArg Except.ok (hcomment false 2)
  · rw [cutOutside_unplaced hends, ofTokens_unplaced]
    exact congrArg Except.ok (readAtRule_unplaced lines lines' before t _ _)
  · split
    · exact congrArg Except.ok (hcomment true 0)
    · rw [← List.map_cons, cutOutside_unplaced hends, ofTokens_unplaced]
      exact readRuleOrDeclaration_unplaced g lines lines' before t _ _

/-! ### Steps -/

/-- Forgetting the place of a head twice is forgetting it once. -/
@[simp] theorem Head.unplaced_unplaced (h : Head) : h.unplaced.unplaced = h.unplaced := by
  cases h <;> rfl

mutual

/-- Forgetting the places of a node twice is forgetting them once. -/
@[simp] theorem Node.unplaced_unplaced : ∀ n : Node, n.unplaced.unplaced = n.unplaced
  | .rule h ns | .atRule h ns => by
      simp [Node.unplaced, Node.unplacedAll_unplacedAll ns]
  | .atStatement _ | .declaration _ | .comment _ => rfl

/-- Forgetting the places of nodes twice is forgetting them once. -/
@[simp] theorem Node.unplacedAll_unplacedAll :
    ∀ ns : List Node, Node.unplacedAll (Node.unplacedAll ns) = Node.unplacedAll ns
  | [] => rfl
  | n :: ns => by
      simp [Node.unplacedAll, Node.unplaced_unplaced n, Node.unplacedAll_unplacedAll ns]

end

/-- Forgetting the places of open blocks twice is forgetting them once. -/
@[simp] theorem OpenBlock.unplaced_comp_unplaced :
    OpenBlock.unplaced ∘ OpenBlock.unplaced = OpenBlock.unplaced := by
  funext b
  simp [OpenBlock.unplaced]

/-- Forgetting the places of a body twice is forgetting them once. -/
@[simp] theorem Body.unplaced_unplaced (b : Body) : b.unplaced.unplaced = b.unplaced := by
  simp [Body.unplaced]

/-- Forgetting the places of a statement twice is forgetting them once. -/
@[simp] theorem Statement.unplaced_unplaced (s : Statement) : s.unplaced.unplaced = s.unplaced := by
  cases s <;> simp [Statement.unplaced]

/-- A block is closed alike wherever it stands. -/
theorem OpenBlock.unplaced_close (b : OpenBlock) (lines lines' : LineMap) (body : Body)
    (stop stop' : Nat) :
    (b.unplaced.close lines' body.unplaced stop').unplaced = (b.close lines body stop).unplaced := by
  obtain ⟨head, start, brace, siblings⟩ := b
  cases head <;>
    simp [OpenBlock.close, OpenBlock.unplaced, Body.unplaced, Head.unplaced, Node.unplaced,
      Node.unplacedAll_eq_map]

namespace Parse

/-- How far parsing has come and the tokens that are left, without places. -/
def stepUnplaced (q : Parse × List Token) : Parse × List Token :=
  (q.1.unplaced, q.2.map Token.unplaced)

/-- Forgetting the places of a parse twice is forgetting them once. -/
@[simp] theorem unplaced_unplaced (p : Parse) : p.unplaced.unplaced = p.unplaced := by
  simp [unplaced]

/-- A node is put into a parse wherever it stands. -/
theorem unplaced_push (p : Parse) (n : Node) (terminated : Bool) :
    (p.push n terminated).unplaced = p.unplaced.push n.unplaced terminated := by
  simp [push, unplaced, Body.unplaced, Node.unplacedAll]

/-- A statement is taken up alike wherever it stands. -/
theorem unplaced_accept (p : Parse) (s : Statement) :
    (p.accept s).unplaced = (p.unplaced.accept s.unplaced).unplaced := by
  cases s with
  | whole n terminated =>
      simp [accept, Statement.unplaced, push, unplaced, Body.unplaced, Node.unplacedAll]
  | opening head start brace =>
      simp [accept, Statement.unplaced, unplaced, Body.unplaced, OpenBlock.unplaced,
        Node.unplacedAll]

/-- **A step without places** is a step of what has been read without places. -/
theorem step_unplaced (g : Grammar) (lines lines' : LineMap) (p : Parse) (t : Token)
    (ts : List Token) :
    unplacedWith stepUnplaced (p.unplaced.step g lines' t.unplaced (ts.map Token.unplaced)) =
      unplacedWith stepUnplaced (p.step g lines t ts) := by
  simp only [step, Token.kind_unplaced]
  split
  · simp [unplacedWith, stepUnplaced, unplaced, Body.unplaced]
  · simp [unplacedWith, stepUnplaced, unplaced, Body.unplaced]
  · obtain ⟨body, blocks⟩ := p
    cases blocks with
    | nil => rfl
    | cons b bs =>
        simp only [unplaced, List.map_cons, unplacedWith, stepUnplaced]
        rw [← unplaced, ← unplaced, unplaced_push, unplaced_push,
          b.unplaced_close lines lines' body t.stop]
        simp [unplaced, Body.unplaced, OpenBlock.unplaced]
  · refine unplacedWith_map (f := Read.unplaced) (fun r s h => ?_)
      (readStatement_unplaced g lines lines' p.body.pending t ts)
    obtain ⟨hstatement, hrest⟩ : r.statement.unplaced = s.statement.unplaced ∧
        r.rest.map Token.unplaced = s.rest.map Token.unplaced := by
      simpa [Read.unplaced] using h
    simp only [stepUnplaced, hrest]
    rw [unplaced_accept, unplaced_accept p, hstatement, unplaced_unplaced]

/-- Steps that differ in their places only lead on to what does. -/
theorem step_congr {p q : Parse} {t u : Token} {ts us : List Token} (hp : p.unplaced = q.unplaced)
    (ht : t.unplaced = u.unplaced) (hts : ts.map Token.unplaced = us.map Token.unplaced)
    (g : Grammar) (lines lines' : LineMap) :
    unplacedWith stepUnplaced (p.step g lines t ts) =
      unplacedWith stepUnplaced (q.step g lines' u us) := by
  rw [← step_unplaced g lines lines p, ← step_unplaced g lines' lines q, hp, ht, hts]

/-- **Parsing does not depend on places**: what differs in its places only is parsed to what differs
in its places only. -/
theorem run_congr {p q : Parse} {ts us : List Token} (hp : p.unplaced = q.unplaced)
    (hts : ts.map Token.unplaced = us.map Token.unplaced) (g : Grammar) (lines lines' : LineMap) :
    unplacedWith Body.unplaced (p.run g lines ts) =
      unplacedWith Body.unplaced (q.run g lines' us) := by
  match ts, us with
  | [], [] =>
      obtain ⟨body, blocks⟩ := p
      obtain ⟨body', blocks'⟩ := q
      obtain ⟨hbody, hblocks⟩ : body.unplaced = body'.unplaced ∧
          blocks.map OpenBlock.unplaced = blocks'.map OpenBlock.unplaced := by
        simpa [unplaced] using hp
      cases blocks <;> cases blocks' <;>
        simp_all [run, unplacedWith, ParseError.unplaced]
  | t :: ts, u :: us =>
      obtain ⟨ht, hts⟩ := List.cons.inj hts
      have hstep := step_congr hp ht hts g lines lines'
      rw [run_cons, run_cons]
      cases hr : p.step g lines t ts with
      | error e =>
          cases hr' : q.step g lines' u us with
          | error e' => simpa [hr, hr', unplacedWith, Except.bind] using hstep
          | ok r' => simp [hr, hr', unplacedWith] at hstep
      | ok r =>
          cases hr' : q.step g lines' u us with
          | error e' => simp [hr, hr', unplacedWith] at hstep
          | ok r' =>
              obtain ⟨hparse, hrest⟩ : r.1.unplaced = r'.1.unplaced ∧
                  r.2.map Token.unplaced = r'.2.map Token.unplaced := by
                simpa [hr, hr', unplacedWith, stepUnplaced] using hstep
              have := Parse.length_snd_step_le hr
              exact run_congr hparse hrest g lines lines'
termination_by ts.length

/-! ### Older nodes -/

/-- The outermost of open blocks gets more nodes in front of it. -/
def ontoBlocks (ns : List Node) : List OpenBlock → List OpenBlock
  | [] => []
  | [b] => [{ b with siblings := b.siblings ++ ns }]
  | b :: c :: bs => b :: ontoBlocks ns (c :: bs)

/-- Puts nodes, newest first, in front of all that has been read. -/
def onto (ns : List Node) (p : Parse) : Parse :=
  match p.blocks with
  | [] => { p with body := { p.body with nodes := p.body.nodes ++ ns } }
  | b :: bs => { p with blocks := ontoBlocks ns (b :: bs) }

/-- Nodes in front leave the blanks that are pending. -/
@[simp] theorem pending_onto (ns : List Node) (p : Parse) :
    (p.onto ns).body.pending = p.body.pending := by
  rw [onto]
  split <;> rfl

/-- A statement is taken up behind nodes in front as without them. -/
theorem accept_onto (ns : List Node) (p : Parse) (s : Statement) :
    (p.onto ns).accept s = (p.accept s).onto ns := by
  obtain ⟨body, blocks⟩ := p
  cases s <;> cases blocks <;> rfl

/-- A step leaves older nodes where they are. -/
theorem step_onto (g : Grammar) (lines : LineMap) (ns : List Node) (p : Parse) (t : Token)
    (ts : List Token) :
    (p.onto ns).step g lines t ts = (p.step g lines t ts).map fun q => (q.1.onto ns, q.2) := by
  obtain ⟨body, blocks⟩ := p
  rw [step, step]
  split
  · cases blocks <;> rfl
  · cases blocks <;> rfl
  · rcases blocks with _ | ⟨b, _ | ⟨c, bs⟩⟩ <;> rfl
  · rw [pending_onto, map_map]
    exact congrArg _ (funext fun r => by simp [accept_onto])

/-- **What has been read stays in front of what is read.** -/
theorem run_onto (g : Grammar) (lines : LineMap) (ns : List Node) (p : Parse) (ts : List Token) :
    (p.onto ns).run g lines ts =
      (p.run g lines ts).map fun b => { b with nodes := b.nodes ++ ns } := by
  match ts with
  | [] =>
      obtain ⟨body, blocks⟩ := p
      match blocks with
      | [] | [b] | b :: c :: bs => simp [run, onto, ontoBlocks, Except.map]
  | t :: ts =>
      rw [run_cons, run_cons, step_onto]
      cases hq : p.step g lines t ts with
      | error e => rfl
      | ok q =>
          have := Parse.length_snd_step_le hq
          exact run_onto g lines ns q.1 q.2
termination_by ts.length

end Parse

/-! ### Texts -/

/-- An error about a piece of text is the same wherever it stands, but for its position. -/
theorem Token.errorFor_unplaced (piece : Text) (p q : Position) :
    (errorFor piece p).unplaced = (errorFor piece q).unplaced := by
  unfold errorFor
  split <;> rfl

/-- The tokens of a text do not depend on where it stands, but for their places. -/
theorem Token.tokenizeFrom_congr (lines lines' : LineMap) (offset offset' : Nat) (t : Text) :
    unplacedWith (List.map Token.unplaced) (tokenizeFrom lines offset t) =
      unplacedWith (List.map Token.unplaced) (tokenizeFrom lines' offset' t) := by
  fun_induction tokenizeFrom lines offset t generalizing offset' with
  | case1 => simp [tokenizeFrom]
  | case2 offset c t _ hnone =>
      rw [tokenizeFrom]
      split
      · exact congrArg Except.error (errorFor_unplaced _ _ _)
      · simp_all
  | case3 offset c t _ kind hkind ih =>
      conv => rhs; rw [tokenizeFrom]
      split
      · simp_all
      · next kind' hkind' =>
          obtain rfl : kind = kind' := by simpa [hkind] using hkind'
          refine unplacedWith_map (fun us vs h => ?_) (ih _)
          simpa [Token.unplaced] using h

/-- A text has tokens wherever it stands, if it has tokens anywhere. -/
theorem Token.exists_tokenizeFrom {offset : Nat} {t : Text}
    (h : tokenizeFrom lines offset t = .ok ts) (lines' : LineMap) (offset' : Nat) :
    ∃ us, tokenizeFrom lines' offset' t = .ok us ∧ us.map unplaced = ts.map unplaced := by
  have hcongr := tokenizeFrom_congr lines lines' offset offset' t
  rw [h] at hcongr
  cases hus : tokenizeFrom lines' offset' t with
  | error e => simp [hus, unplacedWith] at hcongr
  | ok us => exact ⟨us, rfl, by simpa [hus, unplacedWith] using hcongr.symm⟩

/-- The style sheet that a body is. -/
def Body.toRoot (source : Option Range) (b : Body) : Root :=
  { nodes := b.nodes.reverse, after := some b.pending, semicolon := b.semicolon, source := source }

/-- A style sheet without its places. -/
def Root.unplaced (r : Root) : Root :=
  { r with nodes := Node.unplacedAll r.nodes, source := none }

/-- Puts a node in front of a style sheet. -/
def Root.cons (n : Node) (r : Root) : Root :=
  { r with nodes := n :: r.nodes }

/-- What a text denotes in a grammar, without places. -/
def parseUnplaced (g : Grammar) (t : Text) : Except ParseError Root :=
  unplacedWith Root.unplaced (parse g t)

/-- Parsing a text is cutting it into tokens and reading these. -/
theorem parse_eq (g : Grammar) (t : Text) :
    parse g t = (Token.tokenize t).bind fun ts =>
      (Parse.run g (LineMap.ofText t) {} ts).map
        (Body.toRoot (some ((LineMap.ofText t).range ⟨0, Text.byteSize t⟩))) := by
  rw [parse]
  cases Token.tokenize t with
  | error e => rfl
  | ok ts =>
      cases h : Parse.run g (LineMap.ofText t) {} ts with
      | error e => simp [Except.bind, bind, h, Except.map]
      | ok b => simp [Except.bind, bind, h, Except.map, pure, Except.pure, Body.toRoot]

/-- Bodies that differ in their places only are the same style sheet but for places. -/
theorem Body.unplaced_toRoot {b b' : Body} (h : b.unplaced = b'.unplaced)
    (source source' : Option Range) :
    (b.toRoot source).unplaced = (b'.toRoot source').unplaced := by
  obtain ⟨nodes, pending, semicolon⟩ := b
  obtain ⟨nodes', pending', semicolon'⟩ := b'
  simp only [Body.unplaced, Body.mk.injEq] at h
  obtain ⟨hnodes, rfl, rfl⟩ := h
  simp only [Node.unplacedAll_eq_map] at hnodes
  simp [Body.toRoot, Root.unplaced, Node.unplacedAll_eq_map, hnodes]

/-- What tokens denote does not depend on their places. -/
theorem parseUnplaced_eq (g : Grammar) (lines : LineMap) (offset : Nat) (t : Text) :
    parseUnplaced g t = unplacedWith Root.unplaced ((Token.tokenizeFrom lines offset t).bind
      fun ts => (Parse.run g lines {} ts).map (Body.toRoot none)) := by
  rw [parseUnplaced, parse_eq]
  refine unplacedWith_bind (fun us vs h => ?_)
    (Token.tokenizeFrom_congr (LineMap.ofText t) lines 0 offset t)
  exact unplacedWith_map (fun b b' hb => Body.unplaced_toRoot hb _ _)
    (Parse.run_congr rfl h g (LineMap.ofText t) lines)

end

end StyleBlocks.Sheet
