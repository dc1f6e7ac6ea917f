import StyleBlocks.Proofs.Sheet.DefaultSpacing
import StyleBlocks.Proofs.Sheet.PlainTokens
import StyleBlocks.Proofs.Sheet.Removal

/-!
# Style sheets built by hand

A style sheet that is built by hand has no raws, and is printed with default spacing. If its texts are
plain, that spacing keeps everything apart: each node but the first one begins on a line of its own, so
no comment goes on and no word grows, and a semicolon is left out at the end of a block only. What is
printed is therefore parsed as what the nodes say.

With the spacing written out, every node has a **layout**: tokens that are the node, and that can stand
behind those of another node. Each of them ends in the semicolon it needs. The last node of a block has
none, and need not have one, as no mixin is among the nodes.

## Main results

* `Node.IsBuilt.hasLayout`: a node that is built by hand has a layout.
* `Items.exists_interior`: nodes are the inside of a block without the last semicolon.
* `Root.IsBuilt.denotes_render`: a style sheet that is built by hand is parsed from what it is printed
  as.
-/

namespace StyleBlocks.Sheet

open Token (texts blank colon semicolon openBrace closeBrace ofName ofAtName ofComment)

/-- A node is **built by hand**: no raws are set in it or below it, there are no mixins, and its texts are
plain. Selectors are phrases, properties and the names of at-rules are names, values and parameters are
phrases or empty, and comments do not hold what would end them. -/
inductive Node.IsBuilt : Node → Prop
  | rule {h : RuleHead} {ns : List Node} (hbefore : h.before = none) (hbetween : h.between = none)
      (hafter : h.after = none) (hsemicolon : h.semicolon = false) (hmixin : h.mixin = false)
      (hselector : IsPhrase h.selector) (hns : ∀ n ∈ ns, n.IsBuilt) : IsBuilt (.rule h ns)
  | atRule {h : AtRuleHead} {ns : List Node} (hbefore : h.before = none)
      (hafterName : h.afterName = none) (hbetween : h.between = none) (hafter : h.after = none)
      (hsemicolon : h.semicolon = false) (hname : IsName h.name)
      (hparams : h.params = [] ∨ IsPhrase h.params) (hns : ∀ n ∈ ns, n.IsBuilt) :
      IsBuilt (.atRule h ns)
  | atStatement {h : AtRuleHead} (hbefore : h.before = none) (hafterName : h.afterName = none)
      (hbetween : h.between = none) (hname : IsName h.name)
      (hparams : h.params = [] ∨ IsPhrase h.params) : IsBuilt (.atStatement h)
  | declaration {d : Declaration} (hbefore : d.before = none) (hbetween : d.between = none)
      (hafter : d.after = none) (hprop : IsName d.prop) (hvalue : d.value = [] ∨ IsPhrase d.value) :
      IsBuilt (.declaration d)
  | comment {c : Comment} (hbefore : c.before = none)
      (htext : if c.inline then '\n' ∉ c.text else ¬ ['*', '/'] <:+: c.text) : IsBuilt (.comment c)

/-- A style sheet is **built by hand**: no raws are set, and all nodes are built by hand. -/
structure Root.IsBuilt (r : Root) : Prop where
  after : r.after = none
  semicolon : r.semicolon = false
  nodes : ∀ n ∈ r.nodes, n.IsBuilt

/-- The tokens `ts` are the **layout** of nodes that end by themselves: they stand apart, and begin with
a line break unless the `first` node of a style sheet is in front. -/
structure Layout (g : Grammar) (first : Bool) (ts : List Token) (ns : List Node) : Prop where
  items : Items g ts ns
  apart : Token.Apart ts []
  breaks : first = false → ∀ c ∈ (texts ts).head?, c = '\n'

/-- A node **has a layout** wherever it stands. -/
def Node.HasLayout (g : Grammar) (n : Node) : Prop :=
  ∀ depth first, ∃ ts, Layout g first ts [n.spaced {} depth first]

section

variable {g : Grammar} {top : Bool} {k : Token} {front ks : List Token} {ms ns : List Node} {n : Node}
  {after closer : Text} {depth : Nat} {first : Bool}

/-! ### Spacing -/

/-- A line break with indentation is blank. -/
theorem Spacing.isStyleBlank_of_mem_breakLine (depth : Nat) :
    ∀ c ∈ ({} : Spacing).breakLine depth, Token.isStyleBlank c = true := by
  intro c hc
  rcases List.mem_cons.1 hc with rfl | hc
  · rfl
  · obtain ⟨l, hl, hc⟩ := List.mem_flatten.1 hc
    rw [(List.mem_replicate.1 hl).2] at hc
    obtain rfl : c = ' ' := by simpa using hc
    rfl

/-- **What stands in front of a node** by default is blank, and keeps the node apart from what is in
front of that. -/
theorem Spacing.exists_before (depth : Nat) (first : Bool) (hks : Token.Apart (k :: ks) [])
    (hk : ∀ c ∈ k.text.head?, Token.isStyleBlank c = false) :
    ∃ pend, texts pend = ({} : Spacing).before depth first ∧
      (∀ l ∈ pend, Parse.isPending l = true) ∧ Token.Apart (pend ++ k :: ks) [] ∧
      (first = false → ∀ c ∈ (texts (pend ++ k :: ks)).head?, c = '\n') := by
  have hhead : ∀ c ∈ (texts (k :: ks)).head?, Token.isStyleBlank c = false := by
    rw [Token.texts_cons, List.head?_append_of_ne_nil _ hks.1.ne_nil]
    exact hk
  have hblank : ∀ c ∈ ({} : Spacing).before depth first, Token.isStyleBlank c = true ∨ c = ';' := by
    cases first with
    | true => simp [Spacing.before]
    | false => exact fun c hc => Or.inl (Spacing.isStyleBlank_of_mem_breakLine depth c hc)
  obtain ⟨pend, htext, hpend, hapart⟩ := Token.exists_apart_pending hblank hhead
  refine ⟨pend, htext, hpend, Token.apart_append.2 ⟨by simpa using hapart, hks⟩, ?_⟩
  rintro rfl c hc
  simpa [htext, Spacing.before, Spacing.breakLine, eq_comm] using hc

/-- What stands in front of a closing brace by default is blank, and there is a line break unless the
block is empty. -/
theorem Spacing.close_spec (depth : Nat) (ns : List Node) :
    (∀ c ∈ ({} : Spacing).close depth ns, Token.isStyleBlank c = true) ∧
      (ns ≠ [] → (({} : Spacing).close depth ns).head? = some '\n') := by
  cases ns with
  | nil => simp [Spacing.close]
  | cons n ns => exact ⟨Spacing.isStyleBlank_of_mem_breakLine depth, fun _ => rfl⟩

/-! ### Lists of nodes -/

/-- The spacing does not make a node a mixin. -/
@[simp] theorem Node.isMixin_spaced : (n.spaced {} depth first).isMixin = n.isMixin := by
  cases n <;> rfl

/-- **Nodes that have layouts** have one together. The line break in front of a node ends an inline
comment, and no other token goes on with it. -/
theorem exists_layout_spacedAll (hns : ∀ n ∈ ns, n.HasLayout g) (depth : Nat) (first : Bool) :
    ∃ ts, Layout g first ts (Node.spacedAll {} depth first ns) := by
  induction ns generalizing first with
  | nil => exact ⟨[], .nil, trivial, by simp⟩
  | cons n ns ih =>
      obtain ⟨hn, hns⟩ := List.forall_mem_cons.1 hns
      obtain ⟨ts, hts⟩ := hn depth first
      obtain ⟨us, hus⟩ := ih hns false
      have hbreak := hus.breaks rfl
      have hstops : ∀ k ∈ ts.getLast?, k.StopsAt (texts us ++ []) :=
        hts.items.stopsAt fun _ _ _ c hc => hbreak c (by simpa using hc)
      refine ⟨ts ++ us, hts.items.append hus.items,
        Token.apart_append.2 ⟨hts.apart.replace hstops, hus.apart⟩, fun hfirst c hc => ?_⟩
      rw [Token.texts_append, List.head?_append, Option.mem_def, Option.or_eq_some_iff] at hc
      rcases hc with hc | ⟨-, hc⟩
      · exact hts.breaks hfirst c hc
      · exact hbreak c hc

/-- **Nodes are the inside of a block** without the last semicolon, unless the last one is a mixin, or an
inline comment that would go on. -/
theorem Items.exists_interior (h : Items g front ms) (hfront : Token.Apart front [])
    (hafter : ∀ c ∈ after, Token.isStyleBlank c = true) (hcloser : IsCloser closer)
    (hinline : ∀ m ∈ ms.getLast?, m.isInline = true → ∀ c ∈ (after ++ closer).head?, c = '\n')
    (hmixin : ∀ m ∈ ms.getLast?, m.isMixin = false) :
    ∃ ts, Interior g top ts ms false after ∧ Token.Apart ts closer := by
  have hafter : ∀ c ∈ after, Token.isStyleBlank c = true ∨ c = ';' := fun c hc => Or.inl (hafter c hc)
  by_cases hlast : ∃ m ∈ ms.getLast?, m.needsSemicolon = true
  · -- the last node loses its semicolon
    obtain ⟨m, hm, hneeds⟩ := hlast
    have hmixin := hmixin m hm
    obtain ⟨ms, rfl⟩ := List.getLast?_eq_some_iff.1 hm
    obtain ⟨us, mid, rfl, hus, hmid⟩ := h.split
    obtain ⟨hus', hmid'⟩ := Token.apart_append.1 hfront
    obtain ⟨pend, k, core, rest, behind, own, rfl, hloose⟩ :=
      hmid.exists_looseLeaf hneeds hmid' hafter hcloser
    exact ⟨_, ⟨us, _, ms, rfl, hus, hloose.toTail (by simp [hmixin]) ms⟩, hloose.apart_append hus'⟩
  · obtain ⟨pend, rfl, hpend, hapart⟩ :=
      Token.exists_apart_pending hafter hcloser.isStyleBlank_eq_false
    refine ⟨front ++ pend, ⟨front, pend, ms, rfl, h, .blank hpend fun m hm hneeds => ?_⟩,
      Token.apart_append.2 ⟨hfront.replace (h.stopsAt hinline), hapart⟩⟩
    exact absurd ⟨m, hm, hneeds⟩ hlast

/-! ### Nodes -/

/-- There are no mixins among the nodes that are built by hand. -/
theorem Node.IsBuilt.isMixin_eq (h : n.IsBuilt) : n.isMixin = false := by
  cases h with
  | rule _ _ _ _ hmixin _ _ => exact hmixin
  | _ => rfl

/-- **A comment** has a layout. -/
theorem hasLayout_comment {c : Comment} (hg : g.inlineComments = true) (hbefore : c.before = none)
    (htext : if c.inline then '\n' ∉ c.text else ¬ ['*', '/'] <:+: c.text) :
    (Node.comment c).HasLayout g := by
  intro depth first
  obtain ⟨pend, hpendText, hpend, hapart, hhead⟩ :=
    Spacing.exists_before depth first (apart_ofComment htext) fun d hd => by
      obtain rfl : '/' = d := by cases hc : c.inline <;> simpa [ofComment, hc] using hd
      rfl
  refine ⟨pend ++ [ofComment c.inline c.text],
    .comment hpend (commentOf?_ofComment hg (Node.bare_spaced _ _ _ _)) (fun _ _ => ?_) .nil, hapart,
    hhead⟩
  cases hinline : c.inline <;>
    simp [Node.spaced, Printer.node, Printer.comment, Printer.lookUp, Overrides.none,
      Fragment.texts_append, Fragment.texts_emit, hpendText, ofComment, hbefore, hinline]

/-- **An at-rule without a block** has a layout. -/
theorem hasLayout_atStatement {h : AtRuleHead} (hbefore : h.before = none)
    (hafterName : h.afterName = none) (hbetween : h.between = none) (hname : IsName h.name)
    (hparams : h.params = [] ∨ IsPhrase h.params) : (Node.atStatement h).HasLayout g := by
  intro depth first
  obtain ⟨gap, core, hpadded⟩ := exists_padded hparams
  have hks : Token.Apart (ofAtName h.name :: (gap ++ core) ++ [semicolon]) [] :=
    hpadded.apart_ofAtName hname apart_semicolon fun c hc => by
      obtain rfl : ';' = c := by simpa [semicolon] using hc
      decide
  obtain ⟨pend, hpendText, hpend, hapart, hhead⟩ :=
    Spacing.exists_before depth first hks fun c hc => by
      obtain rfl : '@' = c := by simpa [ofAtName] using hc
      rfl
  refine ⟨pend ++ ofAtName h.name :: (gap ++ core) ++ [] ++ [semicolon],
    .leaf hpend (hpadded.leaf_atStatement (Node.bare_spaced _ _ _ _)) ?_ (by simp) rfl rfl rfl
      (fun _ _ => ?_) .nil, by simpa using hapart, by simpa using hhead⟩
  · exact depthAfterAll_of_isFlat (hpadded.isFlat_atStatement h.name) 0
  · simp [Node.spaced, Printer.node, Printer.atRuleHead, Printer.mark, Printer.lookUp,
      Overrides.none, Fragment.texts_append, Fragment.texts_cons, Fragment.texts_emit, hpendText,
      hpadded.texts_core, hpadded.texts_gap, ofAtName, hbefore, hafterName, hbetween]

/-- **A declaration** has a layout. -/
theorem hasLayout_declaration {d : Declaration} (hbefore : d.before = none)
    (hbetween : d.between = none) (hafter : d.after = none) (hprop : IsName d.prop)
    (hvalue : d.value = [] ∨ IsPhrase d.value) : (Node.declaration d).HasLayout g := by
  intro depth first
  obtain ⟨gap, core, hpadded⟩ := exists_padded hvalue
  obtain ⟨back, hback, hbackText, hbackApart⟩ := hpadded.exists_back
  have hks : Token.Apart (ofName d.prop :: colon :: (gap ++ core ++ back ++ [semicolon])) [] :=
    apart_ofName_colon hprop (Token.apart_append.2 ⟨hbackApart, apart_semicolon⟩)
  obtain ⟨pend, hpendText, hpend, hapart, hhead⟩ :=
    Spacing.exists_before depth first hks hprop.words.isStyleBlank_eq_false
  refine ⟨pend ++ ofName d.prop :: colon :: (gap ++ core) ++ back ++ [semicolon],
    .leaf hpend (hpadded.leaf_declaration (Node.bare_spaced _ _ _ _)) ?_ hback rfl rfl rfl
      (fun _ _ => ?_) .nil, by simpa using hapart, by simpa using hhead⟩
  · exact depthAfterAll_of_isFlat (hpadded.isFlat_declaration d.prop) 0
  · have htexts : texts gap ++ (texts core ++ texts back) = ' ' :: d.value := by
      simpa using hbackText
    simp [Node.spaced, Printer.node, Printer.declaration, Printer.mark, Printer.lookUp,
      Overrides.none, Fragment.texts_append, Fragment.texts_cons, Fragment.texts_emit, hpendText,
      htexts, colon, hbefore, hbetween, hafter]

/-- **A block** has a layout if its nodes have, and its head is made of tokens. -/
theorem exists_layout_block {head : Head} (hhead : IsHead g k ks head)
    (hneeds : ∀ s a ms, (head.close s a ms).needsSemicolon = false)
    (hprints : head.Prints (({} : Spacing).before depth first ++ texts (k :: ks)))
    (hks : Token.Apart (k :: ks) []) (hk : ∀ c ∈ k.text.head?, Token.isStyleBlank c = false)
    (hns : ∀ n ∈ ns, n.HasLayout g) (hmixin : ∀ n ∈ ns, n.isMixin = false) :
    ∃ ts, Layout g first ts [head.close false (({} : Spacing).close depth ns)
      (Node.spacedAll {} (depth + 1) false ns)] := by
  obtain ⟨hblank, hbreak⟩ := Spacing.close_spec depth ns
  obtain ⟨front, hfront⟩ := exists_layout_spacedAll hns (depth + 1) false
  have hlast : ∀ m ∈ (Node.spacedAll {} (depth + 1) false ns).getLast?,
      ∃ n ∈ ns, ∃ first, m = n.spaced {} (depth + 1) first := fun m hm =>
    Node.exists_of_mem_spacedAll (List.mem_of_getLast? hm)
  obtain ⟨ts, ⟨inner, tail, ms, rfl, hinner, htail⟩, hts⟩ : ∃ ts, Interior g false ts
      (Node.spacedAll {} (depth + 1) false ns) false (({} : Spacing).close depth ns) ∧
      Token.Apart ts ['}'] :=
    hfront.items.exists_interior hfront.apart hblank (Or.inr rfl)
      (fun m hm _ c hc => by
        obtain ⟨n, hn, -⟩ := hlast m hm
        have := hbreak (List.ne_nil_of_mem hn)
        rw [List.head?_append, this] at hc
        exact (Option.some.inj hc).symm)
      (fun m hm => by
        obtain ⟨n, hn, first, rfl⟩ := hlast m hm
        rw [Node.isMixin_spaced, hmixin n hn])
  have hopen : Token.Apart (k :: ks) (texts (inner ++ tail ++ [closeBrace])) :=
    hks.replace fun l hl => by
      obtain ⟨us, v, hus, hv⟩ := hhead.endsOpen
      obtain rfl : v = l := by simpa [hus] using hl
      intro c _
      simp [Token.Ends, hv]
  have hapart : Token.Apart (k :: ks ++ (inner ++ tail ++ [closeBrace])) [] :=
    Token.apart_append.2 ⟨by simpa using hopen, Token.apart_append.2
      ⟨hts, .mark (by decide), Token.stopsAt_nil _, trivial⟩⟩
  obtain ⟨pend, hpendText, hpend, hall, hhead'⟩ := Spacing.exists_before depth first hapart hk
  exact ⟨pend ++ k :: ks ++ (inner ++ tail ++ [closeBrace]),
    .block hpend hhead hneeds (by simpa [hpendText] using hprints) hinner htail rfl rfl .nil,
    by simpa using hall, by simpa using hhead'⟩

/-- **A rule** has a layout if its nodes have. -/
theorem hasLayout_rule {h : RuleHead} (hbefore : h.before = none) (hbetween : h.between = none)
    (hafter : h.after = none) (hsemicolon : h.semicolon = false) (hmixin : h.mixin = false)
    (hselector : IsPhrase h.selector) (hns : ∀ n ∈ ns, n.HasLayout g)
    (hmixins : ∀ n ∈ ns, n.isMixin = false) : (Node.rule h ns).HasLayout g := by
  intro depth first
  obtain ⟨ks, htexts, hwords⟩ := hselector.exists_words
  obtain ⟨k, us, rfl, hk⟩ := hwords.first
  let head : RuleHead :=
    { h with before := some (({} : Spacing).before depth first), between := some [' '] }
  have hhead : IsHead g k (us ++ [blank, openBrace]) (.rule head) :=
    hwords.isHead_rule hk htexts.symm hmixin
  have hapart : Token.Apart (k :: (us ++ [blank, openBrace])) [] :=
    Token.apart_append.2 ⟨by simpa using hwords.apart_of_stops apart_openBrace.2, apart_openBrace.1⟩
  have hprints : (Head.rule head).Prints
      (({} : Spacing).before depth first ++ texts (k :: (us ++ [blank, openBrace]))) := by
    intro depth first semicolon after ns
    have htexts : k.text ++ texts us = h.selector := by simpa using htexts
    simp [head, Head.close, Printer.node, Printer.block, Printer.mark, Printer.lookUp,
      Overrides.none, Fragment.texts_append, Fragment.texts_cons, Fragment.texts_emit, hmixin,
      blank, openBrace, ← htexts]
  have hnode : (Node.rule h ns).spaced {} depth first = (Head.rule head).close false
      (({} : Spacing).close depth ns) (Node.spacedAll {} (depth + 1) false ns) := by
    simp [head, Head.close, Node.spaced, hbefore, hbetween, hafter, hsemicolon, hmixin]
  rw [hnode]
  exact exists_layout_block hhead (fun _ _ _ => hmixin) hprints hapart
    hwords.isStyleBlank_eq_false hns hmixins

/-- **An at-rule** with a block has a layout if its nodes have. -/
theorem hasLayout_atRule {h : AtRuleHead} (hbefore : h.before = none)
    (hafterName : h.afterName = none) (hbetween : h.between = none) (hafter : h.after = none)
    (hsemicolon : h.semicolon = false) (hname : IsName h.name)
    (hparams : h.params = [] ∨ IsPhrase h.params) (hns : ∀ n ∈ ns, n.HasLayout g)
    (hmixins : ∀ n ∈ ns, n.isMixin = false) : (Node.atRule h ns).HasLayout g := by
  intro depth first
  obtain ⟨gap, core, hpadded⟩ := exists_padded hparams
  let head : AtRuleHead :=
    { h with
      before := some (({} : Spacing).before depth first)
      afterName := some (texts gap)
      between := some [' '] }
  have hhead : IsHead g (ofAtName head.name) (gap ++ core ++ [blank, openBrace]) (.atRule head) :=
    hpadded.isHead_atRule rfl
  have hprints : (Head.atRule head).Prints (({} : Spacing).before depth first ++
      texts (ofAtName h.name :: (gap ++ core ++ [blank, openBrace]))) := by
    intro depth first semicolon after ns
    simp [head, Head.close, Printer.node, Printer.atRuleHead, Printer.block, Printer.mark,
      Printer.lookUp, Overrides.none, Fragment.texts_append, Fragment.texts_cons,
      Fragment.texts_emit, blank, openBrace, ofAtName, hpadded.texts_core]
  have hnode : (Node.atRule h ns).spaced {} depth first = (Head.atRule head).close false
      (({} : Spacing).close depth ns) (Node.spacedAll {} (depth + 1) false ns) := by
    simp [head, Head.close, Node.spaced, hbefore, hafterName, hbetween, hafter, hsemicolon,
      hpadded.texts_gap]
  rw [hnode]
  refine exists_layout_block hhead (fun _ _ _ => rfl) hprints
    (hpadded.apart_ofAtName hname apart_openBrace.1 apart_openBrace.2) (fun c hc => ?_) hns hmixins
  obtain rfl : '@' = c := by simpa [ofAtName] using hc
  rfl

/-- **A node that is built by hand** has a layout. -/
theorem Node.IsBuilt.hasLayout (hg : g.inlineComments = true) (h : n.IsBuilt) : n.HasLayout g := by
  induction h with
  | rule hbefore hbetween hafter hsemicolon hmixin hselector hns ih =>
      exact hasLayout_rule hbefore hbetween hafter hsemicolon hmixin hselector ih
        fun n hn => (hns n hn).isMixin_eq
  | atRule hbefore hafterName hbetween hafter hsemicolon hname hparams hns ih =>
      exact hasLayout_atRule hbefore hafterName hbetween hafter hsemicolon hname hparams ih
        fun n hn => (hns n hn).isMixin_eq
  | atStatement hbefore hafterName hbetween hname hparams =>
      exact hasLayout_atStatement hbefore hafterName hbetween hname hparams
  | declaration hbefore hbetween hafter hprop hvalue =>
      exact hasLayout_declaration hbefore hbetween hafter hprop hvalue
  | comment hbefore htext => exact hasLayout_comment hg hbefore htext

/-! ### Style sheets -/

/-- **A style sheet that is built by hand** is printed as a text that is parsed as what its nodes say:
the same kinds of nodes with the same texts, each in the same block. -/
theorem Root.IsBuilt.denotes_render {r : Root} (hg : g.inlineComments = true) (h : r.IsBuilt) :
    Denotes g r.render r.nodes := by
  obtain ⟨front, hfront⟩ :=
    exists_layout_spacedAll (fun n hn => (h.nodes n hn).hasLayout hg) 0 true
  obtain ⟨ts, hinterior, hts⟩ : ∃ ts,
      Interior g true ts (Node.spacedAll {} 0 true r.nodes) false [] ∧ Token.Apart ts [] :=
    hfront.items.exists_interior hfront.apart (by simp) (Or.inl rfl) (by simp) fun m hm => by
      obtain ⟨n, hn, first, rfl⟩ := Node.exists_of_mem_spacedAll (List.mem_of_getLast? hm)
      rw [Node.isMixin_spaced, (h.nodes n hn).isMixin_eq]
  have htexts : texts ts = r.render := by
    rw [← hinterior.prints 0 true, Printer.nodes_spacedAll]
    simp [Root.render, Printer.root, h.after, h.semicolon, Printer.lookUp, Fragment.texts_append,
      Fragment.texts_emit]
  obtain ⟨root, hroot, hbare⟩ := hinterior.denotes hts
  refine ⟨root, htexts ▸ hroot, hbare.trans ?_⟩
  rw [← Node.bareAll_eq_map, ← Node.bareAll_eq_map, Node.bareAll_spacedAll]

/-- A declaration without a value, a block in a block, and a comment that only a line break ends. -/
theorem Root.IsBuilt.denotes_render_nested :
    let comment : Node := .comment { text := "f".toList, inline := true }
    let atRule : Node := .atRule { name := "d".toList, params := "e".toList } [comment]
    let declaration : Node := .declaration { prop := "c".toList }
    let rule : Node := .rule { selector := "a b".toList } [declaration, atRule]
    Denotes { inlineComments := true }
      "a b \x7b\n    c: ;\n    @d e \x7b\n        //f\n    \x7d\n\x7d".toList [rule] := by
  intro comment atRule declaration rule
  have hcomment : comment.IsBuilt := .comment rfl (show '\n' ∉ "f".toList by decide)
  have hatRule : atRule.IsBuilt :=
    .atRule rfl rfl rfl rfl rfl (by decide) (Or.inr (.name (by decide))) (by simpa using hcomment)
  have hdeclaration : declaration.IsBuilt := .declaration rfl rfl rfl (by decide) (Or.inl rfl)
  have hselector : IsPhrase "a b".toList :=
    .cons (w := "a".toList) (t := "b".toList) (by decide) (.name (by decide))
  have hrule : rule.IsBuilt :=
    .rule rfl rfl rfl rfl rfl hselector (by simpa using ⟨hdeclaration, hatRule⟩)
  have hroot : ({ nodes := [rule] } : Root).IsBuilt := ⟨rfl, rfl, by simpa using hrule⟩
  have hrender : ({ nodes := [rule] } : Root).render =
      "a b \x7b\n    c: ;\n    @d e \x7b\n        //f\n    \x7d\n\x7d".toList := by
    decide +kernel
  rw [← hrender]
  exact Root.IsBuilt.denotes_render rfl hroot

end

end StyleBlocks.Sheet
