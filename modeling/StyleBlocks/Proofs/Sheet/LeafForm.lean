import StyleBlocks.Proofs.Sheet.DeclarationValue

/-!
# Statements and what stands behind them

A statement without a block is read up to the first semicolon, brace or end of its block outside
parentheses. What it **says**, its kind and its texts without raws and places, is told by its tokens
up to the last one that is not blank: neither the blanks behind these, nor whether a semicolon ends
the statement, nor what follows makes a difference. Only a mixin needs its semicolon. The head of a
block does not depend on what is behind its brace either.

## Main results

* `Leaf.readStatement_semicolon`, `Leaf.readStatement_outside`: what a statement without a block is
  read as, in front of a semicolon and at the end of its block.
* `exists_leaf_of_readStatement`: what is read as a node without a block is a leaf, or a comment.
* `IsHead.readStatement_eq`, `exists_isHead_of_readStatement`: the same for the heads of blocks.
-/

namespace StyleBlocks.Sheet

open Token (texts)

/-! ### What nodes say -/

mutual

/-- A node and the nodes below it as what they say: without raws, places and corrections. -/
def Node.bare : Node → Node
  | .rule h ns => .rule { selector := h.selector, mixin := h.mixin } (Node.bareAll ns)
  | .atRule h ns => .atRule { name := h.name, params := h.params } (Node.bareAll ns)
  | .atStatement h => .atStatement { name := h.name, params := h.params }
  | .declaration d => .declaration { prop := d.prop, value := d.value }
  | .comment c => .comment { text := c.text, inline := c.inline }

/-- Nodes and the nodes below them as what they say. -/
def Node.bareAll : List Node → List Node
  | [] => []
  | n :: ns => n.bare :: Node.bareAll ns

end

/-- What nodes say is what each of them says. -/
theorem Node.bareAll_eq_map (ns : List Node) : Node.bareAll ns = ns.map Node.bare := by
  induction ns with
  | nil => rfl
  | cons n ns ih => rw [Node.bareAll, ih, List.map_cons]

/-- The head of a block as what it says. -/
def Head.bare : Head → Head
  | .rule h => .rule { selector := h.selector, mixin := h.mixin }
  | .atRule h => .atRule { name := h.name, params := h.params }

/-- Whether a node is a rule without a block. -/
def Node.isMixin : Node → Bool
  | .rule h _ => h.mixin
  | _ => false

/-- What a node says tells if it is a mixin. -/
@[simp] theorem Node.isMixin_bare (n : Node) : n.bare.isMixin = n.isMixin := by
  cases n <;> rfl

/-! ### Cuts in front of blanks -/

section

variable {p : Token → Bool} {depth : Nat} {us vs core back : List Token} {t v : Token}

/-- Blanks neither open parentheses nor close them. -/
theorem depthAfterAll_spaces (hback : ∀ k ∈ back, k.isSpace = true) (depth : Nat) :
    depthAfterAll depth back = depth := by
  induction back with
  | nil => rfl
  | cons k back ih =>
      obtain ⟨hk, hback⟩ := List.forall_mem_cons.1 hback
      have hdepth : k.depthAfter depth = depth := by
        simp [Token.depthAfter, Token.kind_of_isSpace hk]
      exact (congrArg (depthAfterAll · back) hdepth).trans (ih hback)

/-- Blanks pass what does not hold of them. -/
theorem passes_spaces (hp : ∀ k, k.isSpace = true → p k = false)
    (hback : ∀ k ∈ back, k.isSpace = true) (depth : Nat) : Passes p depth back := by
  induction back generalizing depth with
  | nil => trivial
  | cons k back ih =>
      obtain ⟨hk, hback⟩ := List.forall_mem_cons.1 hback
      exact ⟨fun h => by simp [hp k hk] at h, ih hback _⟩

/-- What has no colon has none with blanks behind it. -/
theorem cutOutside_colon_append_spaces (hback : ∀ k ∈ back, k.isSpace = true)
    (h : cutOutside (fun u => u.kind = .colon) depth core = (us, [])) :
    cutOutside (fun u => u.kind = .colon) depth (core ++ back) = (core ++ back, []) := by
  have hspace : ∀ k : Token, k.isSpace = true → decide (k.kind = .colon) = false := by
    intro k hk
    simp [Token.kind_of_isSpace hk]
  obtain ⟨hcore, hpasses, -⟩ := cutOutside_eq_iff.1 h
  rw [List.append_nil] at hcore
  subst hcore
  refine cutOutside_eq_iff.2 ⟨by simp, passes_append.2 ⟨hpasses, passes_spaces hspace hback _⟩, ?_⟩
  simp

/-- A list is cut where it was, whatever is put behind it. -/
theorem cutOutside_append_of_cons (h : cutOutside p depth core = (us, v :: vs))
    (back : List Token) : cutOutside p depth (core ++ back) = (us, v :: vs ++ back) := by
  obtain ⟨rfl, hpasses, hhead⟩ := cutOutside_eq_iff.1 h
  exact cutOutside_eq_iff.2 ⟨by simp, hpasses, by simpa using hhead⟩

/-- Blanks behind a list that ends in no blank are what is trimmed off it behind. -/
theorem trimBlanks_append_spaces (hcore : core = [] ∨ Token.EndsSolid core)
    (hback : ∀ k ∈ back, k.isSpace = true) :
    trimBlanks (core ++ back) =
      ⟨core.takeWhile Token.isSpace, core.dropWhile Token.isSpace, back⟩ := by
  have hcut : cutBlanks (core ++ back) = (core, back) := by
    rcases hcore with rfl | hsolid
    · have hnil : (cutBlanks back).1 = [] := fst_cutBlanks_eq_nil fun k hk =>
        hback k (by rw [← cutBlanks_append back]; exact List.mem_append_left _ hk)
      have happend := cutBlanks_append back
      rw [hnil, List.nil_append] at happend
      exact Prod.ext hnil happend
    · exact cutBlanks_append_spaces hsolid hback
  simp [trimBlanks, hcut]

/-- What stands behind a token in what ends in no blank does not end in one either. -/
theorem eq_nil_or_endsSolid_of_append (h : Token.EndsSolid (us ++ v :: vs)) :
    vs = [] ∨ Token.EndsSolid vs := by
  obtain ⟨ws, w, hws, hw⟩ := h
  rcases List.eq_nil_or_concat' vs with rfl | ⟨xs, x, rfl⟩
  · exact Or.inl rfl
  · have hlast : us ++ v :: xs ++ [x] = ws ++ [w] := by simpa using hws
    obtain ⟨-, hx⟩ := List.append_inj' hlast rfl
    exact Or.inr ⟨xs, x, rfl, by rwa [(List.cons.inj hx).1]⟩

end

/-! ### Leaves -/

/-- What the tokens of a statement without a block say, comments aside. -/
def leafOf? (g : Grammar) (t : Token) (core : List Token) : Option Node :=
  if t.kind = .atWord then
    some (.atStatement
      { name := t.text.drop 1, params := texts (core.dropWhile Token.isSpace) })
  else
    match cutOutside (fun u => u.kind = .colon) 0 (t :: core) with
    | (left, _ :: right) =>
      some (.declaration
        { prop := texts (cutBlanks left).1, value := texts (right.dropWhile Token.isSpace) })
    | (_, []) =>
      if g.bareStatements then some (.rule { selector := texts (t :: core), mixin := true } [])
      else none

/-- A token **begins a statement** other than a comment. -/
structure Token.Begins (g : Grammar) (t : Token) : Prop where
  notPending : t.kind ≠ .space ∧ t.kind ≠ .semicolon
  notClose : t.kind ≠ .closeCurly
  notComment : t.kind ≠ .comment ∧ ¬ (t.kind = .lineComment ∧ g.inlineComments)

/-- A **leaf**: the tokens `t :: core` are a statement without a block, up to its last token that is
not blank, and say the same as the node `n`. -/
structure Leaf (g : Grammar) (t : Token) (core : List Token) (n : Node) : Prop where
  begins : t.Begins g
  passes : Passes Token.endsStatement 0 (t :: core)
  solid : Token.EndsSolid (t :: core)
  meaning : leafOf? g t core = some n.bare

section

variable {g : Grammar} {lines : LineMap} {before : Text} {t u : Token}
  {ts core back inner following rest : List Token} {n : Node} {terminated : Bool}

/-- What is read of a statement other than a comment, if it is known where it ends. -/
theorem readStatement_eq (ht : t.Begins g)
    (hcut : cutOutside Token.endsStatement 0 (t :: ts) = (inner, following)) :
    readStatement g lines before t ts =
      if t.kind = .atWord then .ok (readAtRule lines before t inner.tail (.ofTokens following))
      else readRuleOrDeclaration g lines before t inner (.ofTokens following) := by
  rw [readStatement]
  split
  · next hk => exact absurd hk ht.notComment.1
  · next hk =>
      have hskip : cutOutside Token.endsStatement 0 (t :: ts) =
          (t :: (cutOutside Token.endsStatement 0 ts).1,
            (cutOutside Token.endsStatement 0 ts).2) := by
        simp [cutOutside, Token.endsStatement, Token.depthAfter, hk]
      rw [hskip] at hcut
      cases hcut
      rw [if_pos hk]
      rfl
  · next hk =>
      rw [if_neg ht.notComment.2, hcut, if_neg hk]

/-- A leaf and the blanks behind it are cut off in front of what ends the statement. -/
theorem Leaf.cutOutside_eq (h : Leaf g t core n) (hback : ∀ k ∈ back, k.isSpace = true)
    (hfollowing : ∀ k ∈ following.head?, depthAfterAll 0 (t :: core) = 0 ∧ k.endsStatement = true) :
    cutOutside Token.endsStatement 0 (t :: (core ++ back ++ following)) =
      (t :: core ++ back, following) := by
  have hspace : ∀ k : Token, k.isSpace = true → k.endsStatement = false := by
    intro k hk
    simp [Token.endsStatement, Token.kind_of_isSpace hk]
  refine cutOutside_eq_iff.2 ⟨by simp, passes_append.2 ⟨h.passes, passes_spaces hspace hback _⟩, ?_⟩
  intro k hk
  rw [depthAfterAll_append, depthAfterAll_spaces hback]
  exact hfollowing k hk

/-- What stands behind the first token of a leaf ends in no blank. -/
theorem Leaf.eq_nil_or_endsSolid (h : Leaf g t core n) : core = [] ∨ Token.EndsSolid core :=
  @eq_nil_or_endsSolid_of_append [] core t h.solid

/-- What a leaf with blanks behind it is read as: an at-rule, a declaration, or, if there is no
colon, a mixin. -/
theorem Leaf.cases (h : Leaf g t core n) (hback : ∀ k ∈ back, k.isSpace = true) :
    (t.kind = .atWord ∧ n.bare = .atStatement
      { name := t.text.drop 1, params := texts (core.dropWhile Token.isSpace) }) ∨
    (t.kind ≠ .atWord ∧ ∃ left colon right,
      cutOutside (fun u => u.kind = .colon) 0 (t :: core ++ back) =
          (left, colon :: (right ++ back)) ∧
        (right = [] ∨ Token.EndsSolid right) ∧ n.bare = .declaration
          { prop := texts (cutBlanks left).1, value := texts (right.dropWhile Token.isSpace) }) ∨
    (t.kind ≠ .atWord ∧ g.bareStatements = true ∧ n.isMixin = true ∧
      cutOutside (fun u => u.kind = .colon) 0 (t :: core ++ back) = (t :: core ++ back, []) ∧
        n.bare = .rule { selector := texts (t :: core), mixin := true } []) := by
  have hmeaning := h.meaning
  rw [leafOf?] at hmeaning
  split at hmeaning
  · next hk => exact Or.inl ⟨hk, (Option.some.inj hmeaning).symm⟩
  next hk =>
  split at hmeaning
  · next left colon right hcut =>
      have hcore := (cutOutside_eq_iff.1 hcut).1
      refine Or.inr (Or.inl ⟨hk, left, colon, right, cutOutside_append_of_cons hcut back, ?_, ?_⟩)
      · exact eq_nil_or_endsSolid_of_append (hcore ▸ h.solid)
      · exact (Option.some.inj hmeaning).symm
  · next left hcut =>
      split at hmeaning
      · next hbare =>
          have hn := (Option.some.inj hmeaning).symm
          refine Or.inr (Or.inr ⟨hk, hbare, ?_, ?_, hn⟩)
          · rw [← Node.isMixin_bare, hn]
            rfl
          · exact cutOutside_colon_append_spaces hback hcut
      · contradiction

/-- **A leaf in front of a semicolon**, with blanks between them or none, is read as what it says.
-/
theorem Leaf.readStatement_semicolon (h : Leaf g t core n)
    (hclosed : depthAfterAll 0 (t :: core) = 0) (hback : ∀ k ∈ back, k.isSpace = true)
    (hu : u.kind = .semicolon) (lines : LineMap) (before : Text) (rest : List Token) :
    ∃ m, readStatement g lines before t (core ++ back ++ u :: rest) =
      .ok ⟨.whole m true, rest⟩ ∧ m.bare = n.bare := by
  have hends : ∀ k ∈ (u :: rest).head?,
      depthAfterAll 0 (t :: core) = 0 ∧ k.endsStatement = true := by
    simp [Token.endsStatement, hclosed, hu]
  have hending : Ending.ofTokens (u :: rest) = .semicolon u rest := by simp [Ending.ofTokens, hu]
  rw [readStatement_eq h.begins (h.cutOutside_eq hback hends), hending]
  rcases h.cases hback with ⟨hk, hn⟩ | ⟨hk, left, colon, right, hcut, hright, hn⟩ |
    ⟨hk, hbare, -, hcut, hn⟩
  · have htrim := trimBlanks_append_spaces h.eq_nil_or_endsSolid hback
    rw [if_pos hk, hn, List.cons_append, List.tail_cons]
    simp only [readAtRule, htrim]
    exact ⟨_, rfl, rfl⟩
  · have htrim := trimBlanks_append_spaces hright hback
    rw [if_neg hk, hn]
    simp only [readRuleOrDeclaration, hcut, readDeclaration, htrim]
    split
    · exact ⟨_, rfl, rfl⟩
    · exact ⟨_, rfl, rfl⟩
  · have hblanks := cutBlanks_append_spaces h.solid hback
    rw [if_neg hk, hn]
    simp only [readRuleOrDeclaration, hcut, hbare, hblanks]
    exact ⟨_, rfl, rfl⟩

/-- What is followed by the end of its block is ended by it. -/
theorem ofTokens_outside (h : ∀ k ∈ rest.head?, k.kind = .closeCurly) :
    Ending.ofTokens rest = .outside rest := by
  cases rest with
  | nil => rfl
  | cons v rest => simp [Ending.ofTokens, h v rfl]

/-- **A leaf at the end of its block**, but for blanks, is read as what it says, unless it is a
mixin. -/
theorem Leaf.readStatement_outside (h : Leaf g t core n) (hmixin : n.isMixin = false)
    (hback : ∀ k ∈ back, k.isSpace = true)
    (hrest : ∀ k ∈ rest.head?, depthAfterAll 0 (t :: core) = 0 ∧ k.kind = .closeCurly)
    (lines : LineMap) (before : Text) :
    ∃ m, readStatement g lines before t (core ++ back ++ rest) =
      .ok ⟨.whole m false, back ++ rest⟩ ∧ m.bare = n.bare := by
  have hends : ∀ k ∈ rest.head?, depthAfterAll 0 (t :: core) = 0 ∧ k.endsStatement = true :=
    fun k hk => ⟨(hrest k hk).1, by simp [Token.endsStatement, (hrest k hk).2]⟩
  rw [readStatement_eq h.begins (h.cutOutside_eq hback hends),
    ofTokens_outside fun k hk => (hrest k hk).2]
  rcases h.cases hback with ⟨hk, hn⟩ | ⟨hk, left, colon, right, hcut, hright, hn⟩ | ⟨-, -, hm, -, -⟩
  · have htrim := trimBlanks_append_spaces h.eq_nil_or_endsSolid hback
    rw [if_pos hk, hn, List.cons_append, List.tail_cons]
    simp only [readAtRule, htrim]
    exact ⟨_, rfl, rfl⟩
  · have htrim := trimBlanks_append_spaces hright hback
    rw [if_neg hk, hn]
    simp only [readRuleOrDeclaration, hcut, readDeclaration, htrim]
    exact ⟨_, rfl, rfl⟩
  · simp [hm] at hmixin

/-- A statement without a colon is an error, except for a mixin with its semicolon. -/
theorem readRuleOrDeclaration_of_noColon {ending : Ending}
    (hcut : cutOutside (fun u => u.kind = .colon) 0 inner = (inner, []))
    (hbrace : ∀ u rest, ending ≠ .brace u rest)
    (hending : g.bareStatements = true → ∀ u rest, ending ≠ .semicolon u rest) :
    readRuleOrDeclaration g lines before t inner ending =
      .error (.unknownWord t.text (lines.position t.start)) := by
  cases ending with
  | brace u rest => exact absurd rfl (hbrace u rest)
  | semicolon u rest =>
      cases hbare : g.bareStatements with
      | true => exact absurd rfl (hending hbare u rest)
      | false => simp [readRuleOrDeclaration, hcut, hbare]
  | outside rest => simp [readRuleOrDeclaration, hcut]

/-- **A mixin at the end of its block** is an error: it lacks its semicolon. -/
theorem Leaf.readStatement_mixin (h : Leaf g t core n) (hmixin : n.isMixin = true)
    (hback : ∀ k ∈ back, k.isSpace = true)
    (hrest : ∀ k ∈ rest.head?, depthAfterAll 0 (t :: core) = 0 ∧ k.kind = .closeCurly)
    (lines : LineMap) (before : Text) :
    readStatement g lines before t (core ++ back ++ rest) =
      .error (.unknownWord t.text (lines.position t.start)) := by
  have hends : ∀ k ∈ rest.head?, depthAfterAll 0 (t :: core) = 0 ∧ k.endsStatement = true :=
    fun k hk => ⟨(hrest k hk).1, by simp [Token.endsStatement, (hrest k hk).2]⟩
  rw [readStatement_eq h.begins (h.cutOutside_eq hback hends),
    ofTokens_outside fun k hk => (hrest k hk).2]
  rw [← Node.isMixin_bare] at hmixin
  rcases h.cases hback with ⟨-, hn⟩ | ⟨-, left, colon, right, -, -, hn⟩ | ⟨hk, -, -, hcut, -⟩
  · simp [hn, Node.isMixin] at hmixin
  · simp [hn, Node.isMixin] at hmixin
  · rw [if_neg hk, readRuleOrDeclaration_of_noColon hcut (by simp) (by simp)]

/-- The tokens from one that begins a statement up to a semicolon or the end of the block: they
begin with that token, and the blanks at their end can be cut off. -/
theorem exists_core_of_cutOutside (ht : t.Begins g)
    (hcut : cutOutside Token.endsStatement 0 (t :: ts) = (inner, following))
    (hbrace : ∀ k ∈ following.head?, k.kind ≠ .openCurly) :
    ∃ core back, inner = t :: core ++ back ∧ ts = core ++ back ++ following ∧
      Passes Token.endsStatement 0 (t :: core) ∧ Token.EndsSolid (t :: core) ∧
      (∀ k ∈ back, k.isSpace = true) ∧
      (following ≠ [] → depthAfterAll 0 (t :: core) = 0) := by
  obtain ⟨happend, hpasses, hhead⟩ := cutOutside_eq_iff.1 hcut
  cases inner with
  | nil =>
      obtain rfl : t :: ts = following := happend
      rcases Token.kind_of_endsStatement (hhead t rfl).2 with hk | hk | hk
      · exact absurd hk (hbrace t rfl)
      · exact absurd hk ht.notPending.2
      · exact absurd hk ht.notClose
  | cons k inner =>
      obtain ⟨rfl, rfl⟩ := List.cons.inj happend
      have hsplit := cutBlanks_append (t :: inner)
      have hback : ∀ k ∈ (cutBlanks (t :: inner)).2, k.isSpace = true :=
        fun _ hk => isSpace_of_mem_cutBlanks hk
      have hne : (cutBlanks (t :: inner)).1 ≠ [] := by
        intro hnil
        rw [hnil, List.nil_append] at hsplit
        have hspace := hback t (by rw [hsplit]; exact List.mem_cons_self)
        exact ht.notPending.1 (Token.kind_of_isSpace hspace)
      have hsolid := endsSolid_cutBlanks hne
      generalize (cutBlanks (t :: inner)).1 = front at *
      generalize (cutBlanks (t :: inner)).2 = back at *
      obtain ⟨k, core, rfl⟩ := List.exists_cons_of_ne_nil hne
      obtain ⟨rfl, rfl⟩ := List.cons.inj hsplit
      refine ⟨core, back, rfl, rfl, (passes_append.1 hpasses).1, hsolid, hback,
        fun hfollowing => ?_⟩
      obtain ⟨v, vs, rfl⟩ := List.exists_cons_of_ne_nil hfollowing
      have hdepth : depthAfterAll 0 ((k :: core) ++ back) = 0 := (hhead v rfl).1
      rwa [depthAfterAll_append, depthAfterAll_spaces hback] at hdepth

/-- What a leaf says has no raws and places. -/
theorem bare_of_leafOf? (h : leafOf? g t core = some n) : n.bare = n := by
  rw [leafOf?] at h
  split at h
  · cases h
    rfl
  split at h
  · cases h
    rfl
  · split at h
    · cases h
      rfl
    · contradiction

/-- What is no leaf has no colon, and is no mixin. -/
theorem cases_of_leafOf?_eq_none (h : leafOf? g t core = none)
    (hback : ∀ k ∈ back, k.isSpace = true) :
    t.kind ≠ .atWord ∧ g.bareStatements = false ∧
      cutOutside (fun u => u.kind = .colon) 0 (t :: core ++ back) = (t :: core ++ back, []) := by
  rw [leafOf?] at h
  split at h
  · contradiction
  next hk =>
  split at h
  · contradiction
  next left hleft =>
  split at h
  · contradiction
  next hbare =>
  exact ⟨hk, by simpa using hbare, cutOutside_colon_append_spaces hback hleft⟩

/-- What is not followed by a brace is not ended by one. -/
theorem ofTokens_ne_brace (h : ∀ k ∈ following.head?, k.kind ≠ .openCurly) (u : Token)
    (rest : List Token) : Ending.ofTokens following ≠ .brace u rest := by
  intro hu
  cases following with
  | nil => simp [Ending.ofTokens] at hu
  | cons v vs =>
      rw [Ending.ofTokens] at hu
      split at hu
      · next hk => exact h v rfl hk
      · contradiction
      · contradiction

/-- **What is read as a node without a block is a leaf**, if it is no comment: in front of a
semicolon, or at the end of its block and no mixin. -/
theorem exists_leaf_of_readStatement (ht : t.Begins g)
    (h : readStatement g lines before t ts = .ok ⟨.whole n terminated, rest⟩) :
    ∃ core back, Leaf g t core n ∧ (∀ k ∈ back, k.isSpace = true) ∧
      ((∃ u, u.kind = .semicolon ∧ terminated = true ∧ depthAfterAll 0 (t :: core) = 0 ∧
          ts = core ++ back ++ u :: rest) ∨
        (n.isMixin = false ∧ terminated = false ∧ ∃ following, rest = back ++ following ∧
          ts = core ++ back ++ following ∧ ∀ k ∈ following.head?,
            depthAfterAll 0 (t :: core) = 0 ∧ k.kind = .closeCurly)) := by
  obtain ⟨inner, following, hcut⟩ : ∃ inner following,
      cutOutside Token.endsStatement 0 (t :: ts) = (inner, following) := ⟨_, _, rfl⟩
  have hread := @readStatement_eq g lines before t ts inner following ht hcut
  rw [h] at hread
  have hbrace : ∀ k ∈ following.head?, k.kind ≠ .openCurly := by
    intro k hk hkind
    obtain ⟨vs, rfl⟩ := List.head?_eq_some_iff.1 hk
    have hending : Ending.ofTokens (k :: vs) = .brace k vs := by simp [Ending.ofTokens, hkind]
    rw [hending] at hread
    split at hread <;> simp [readAtRule, readRuleOrDeclaration] at hread
  obtain ⟨core, back, rfl, rfl, hpasses, hsolid, hback, hclosed⟩ :=
    exists_core_of_cutOutside ht hcut hbrace
  have hleaf : ∀ b, leafOf? g t core = some b → Leaf g t core b := fun b hb =>
    ⟨ht, hpasses, hsolid, by rw [hb, bare_of_leafOf? hb]⟩
  have hending := ofTokens_ne_brace hbrace
  cases hb : leafOf? g t core with
  | none =>
      obtain ⟨hk, hbare, hcolon⟩ := cases_of_leafOf?_eq_none hb hback
      rw [if_neg hk, readRuleOrDeclaration_of_noColon hcolon hending fun hg => by
        simp [hg] at hbare] at hread
      contradiction
  | some b =>
      have hleafb := hleaf b hb
      by_cases hsemicolon : ∃ v ∈ following.head?, v.kind = .semicolon
      · obtain ⟨v, hv, hkind⟩ := hsemicolon
        obtain ⟨vs, rfl⟩ := List.head?_eq_some_iff.1 hv
        have hdepth := hclosed (List.cons_ne_nil _ _)
        obtain ⟨m, hm, hbare⟩ := hleafb.readStatement_semicolon hdepth hback hkind lines before vs
        obtain ⟨⟨rfl, rfl⟩, rfl⟩ : (n = m ∧ terminated = true) ∧ rest = vs := by
          simpa using h.symm.trans hm
        exact ⟨core, back, ⟨ht, hpasses, hsolid, by rw [hb, hbare, bare_of_leafOf? hb]⟩, hback,
          Or.inl ⟨v, hkind, rfl, hdepth, rfl⟩⟩
      · have hend : ∀ k ∈ following.head?,
            depthAfterAll 0 (t :: core) = 0 ∧ k.kind = .closeCurly := by
          intro k hk
          obtain ⟨vs, rfl⟩ := List.head?_eq_some_iff.1 hk
          refine ⟨hclosed (List.cons_ne_nil _ _), ?_⟩
          rcases Token.kind_of_endsStatement ((cutOutside_eq_iff.1 hcut).2.2 k hk).2 with
            hkind | hkind | hkind
          · exact absurd hkind (hbrace k hk)
          · exact absurd ⟨k, hk, hkind⟩ hsemicolon
          · exact hkind
        have hmixin : b.isMixin = false := by
          by_contra hmix
          rw [hleafb.readStatement_mixin (by simpa using hmix) hback hend lines before] at h
          contradiction
        obtain ⟨m, hm, hbare⟩ := hleafb.readStatement_outside hmixin hback hend lines before
        obtain ⟨⟨rfl, rfl⟩, rfl⟩ : (n = m ∧ terminated = false) ∧ rest = back ++ following := by
          simpa using h.symm.trans hm
        refine ⟨core, back, ⟨ht, hpasses, hsolid, by rw [hb, hbare, bare_of_leafOf? hb]⟩, hback,
          Or.inr ⟨?_, rfl, following, rfl, rfl, hend⟩⟩
        rw [← Node.isMixin_bare, hbare, Node.isMixin_bare, hmixin]

/-! ### Comments -/

/-- What a comment says. -/
def commentOf? (g : Grammar) (t : Token) : Option Node :=
  match t.kind with
  | .comment => some (.comment { text := (t.text.drop 2).take (t.text.length - 2 - 2) })
  | .lineComment =>
    if g.inlineComments then
      some (.comment { text := (t.text.drop 2).take (t.text.length - 2 - 0), inline := true })
    else none
  | _ => none

/-- **A comment** is read as what it says, whatever is behind it. -/
theorem readStatement_comment (h : commentOf? g t = some n.bare) (lines : LineMap) (before : Text)
    (ts : List Token) :
    ∃ m, readStatement g lines before t ts = .ok ⟨.whole m false, ts⟩ ∧ m.bare = n.bare := by
  rw [commentOf?] at h
  split at h
  · next hk =>
      have hread : readStatement g lines before t ts =
          .ok (readComment lines before false 2 t ts) := by simp only [readStatement, hk]
      exact ⟨_, hread, Option.some.inj h⟩
  · next hk =>
      split at h
      · next hinline =>
          have hread : readStatement g lines before t ts =
              .ok (readComment lines before true 0 t ts) := by simp [readStatement, hk, hinline]
          exact ⟨_, hread, Option.some.inj h⟩
      · contradiction
  · contradiction

/-- A token that is neither blank nor a semicolon nor a closing brace is a comment or begins another
statement. -/
theorem begins_or_comment (hpending : t.kind ≠ .space ∧ t.kind ≠ .semicolon)
    (hclose : t.kind ≠ .closeCurly) :
    t.Begins g ∨ ∃ b, commentOf? g t = some b ∧ b.bare = b := by
  by_cases hcomment : t.kind = .comment
  · exact Or.inr ⟨_, by simp only [commentOf?, hcomment]; rfl, rfl⟩
  by_cases hinline : t.kind = .lineComment ∧ g.inlineComments
  · exact Or.inr ⟨_, by simp only [commentOf?, hinline.1, hinline.2]; rfl, rfl⟩
  · exact Or.inl ⟨hpending, hclose, hcomment, hinline⟩

/-! ### Heads of blocks -/

/-- Some tokens end with the opening brace of a block. -/
def EndsOpen (ts : List Token) : Prop :=
  ∃ us u, ts = us ++ [u] ∧ u.kind = .openCurly

/-- The tokens `t :: ts` are the **head** of a block with its brace, and say the same as `head`,
whatever is behind them. -/
structure IsHead (g : Grammar) (t : Token) (ts : List Token) (head : Head) : Prop where
  begins : t.Begins g
  endsOpen : EndsOpen (t :: ts)
  readStatement_eq : ∀ (lines : LineMap) (before : Text) (rest : List Token),
    ∃ head' start brace, readStatement g lines before t (ts ++ rest) =
      .ok ⟨.opening head' start brace, rest⟩ ∧ head'.bare = head.bare

/-- The head of a block that the token `t` begins, with the tokens `inner` from it up to the brace.
-/
def headOf (before : Text) (t : Token) (inner : List Token) : Head :=
  if t.kind = .atWord then
    let params := trimBlanks inner.tail
    .atRule
      { name := t.text.drop 1, params := texts params.core, before := some before
        afterName := some (texts params.front), between := some (texts params.back) }
  else
    let selector := cutBlanks inner
    .rule
      { selector := texts selector.1, before := some before, between := some (texts selector.2) }

/-- Tokens in front of a brace are read as the head of a block, whatever is behind the brace. -/
theorem readStatement_brace (ht : t.Begins g)
    (hcut : cutOutside Token.endsStatement 0 (t :: ts) = (inner, u :: rest))
    (hu : u.kind = .openCurly) :
    readStatement g lines before t ts =
      .ok ⟨.opening (headOf before t inner) t.start u.start, rest⟩ := by
  have hending : Ending.ofTokens (u :: rest) = .brace u rest := by simp [Ending.ofTokens, hu]
  rw [readStatement_eq ht hcut, hending, headOf]
  split
  · rfl
  · rfl

/-- Nothing but a brace makes a statement the head of a block. -/
theorem exists_brace_of_readStatement {head : Head} {start brace : Nat} (ht : t.Begins g)
    (hcut : cutOutside Token.endsStatement 0 (t :: ts) = (inner, following))
    (h : readStatement g lines before t ts = .ok ⟨.opening head start brace, rest⟩) :
    ∃ u, u.kind = .openCurly ∧ following = u :: rest := by
  by_cases hbrace : ∃ u ∈ following.head?, u.kind = .openCurly
  · obtain ⟨u, hu, hkind⟩ := hbrace
    obtain ⟨vs, rfl⟩ := List.head?_eq_some_iff.1 hu
    rw [readStatement_brace ht hcut hkind] at h
    cases h
    exact ⟨u, hkind, rfl⟩
  · exfalso
    rw [readStatement_eq ht hcut] at h
    have hending := ofTokens_ne_brace fun k hk hkind => hbrace ⟨k, hk, hkind⟩
    split at h
    · cases hend : Ending.ofTokens following with
      | brace u vs => exact hending u vs hend
      | semicolon u vs | outside vs => simp [hend, readAtRule] at h
    · unfold readRuleOrDeclaration at h
      dsimp only at h
      split at h
      · next u vs hend => exact hending u vs hend
      split at h
      · unfold readDeclaration at h
        dsimp only at h
        split at h
        · split at h <;> simp at h
        · simp at h
        · simp at h
      · split at h <;> simp at h

/-- **What is read as the head of a block** is one, whatever is behind it. -/
theorem exists_isHead_of_readStatement {head : Head} {start brace : Nat} (ht : t.Begins g)
    (h : readStatement g lines before t ts = .ok ⟨.opening head start brace, rest⟩) :
    ∃ us, ts = us ++ rest ∧ IsHead g t us head := by
  obtain ⟨inner, following, hcut⟩ : ∃ inner following,
      cutOutside Token.endsStatement 0 (t :: ts) = (inner, following) := ⟨_, _, rfl⟩
  obtain ⟨u, hu, rfl⟩ := exists_brace_of_readStatement ht hcut h
  obtain ⟨happend, hpasses, hhead⟩ := cutOutside_eq_iff.1 hcut
  obtain ⟨us, hus⟩ : ∃ us, t :: us = inner ++ [u] := by
    cases inner with
    | nil => exact ⟨[], by rw [(List.cons.inj happend).1]; rfl⟩
    | cons k inner => exact ⟨inner ++ [u], by rw [(List.cons.inj happend).1]; rfl⟩
  have happend' : ∀ rest', t :: (us ++ rest') = inner ++ u :: rest' := fun rest' => by
    rw [← List.cons_append, hus]
    simp
  refine ⟨us, (List.cons.inj (happend.trans (happend' rest).symm)).2, ht, ⟨inner, u, hus, hu⟩,
    fun lines' before' rest' => ⟨headOf before' t inner, t.start, u.start, ?_, ?_⟩⟩
  · refine readStatement_brace ht (cutOutside_eq_iff.2 ⟨happend' rest', hpasses, ?_⟩) hu
    simpa using hhead
  · rw [readStatement_brace ht hcut hu] at h
    cases h
    simp only [headOf]
    split <;> rfl

end

end StyleBlocks.Sheet
