import StyleBlocks.Proofs.Sheet.Holes
import StyleBlocks.Sheet.Dialect

/-!
# Removing nodes

A node of a style sheet that has been parsed is removed, and what is printed then is parsed again.
What ended the node in front of the removed one meets what stands behind it, and whether the last
node of the block has a semicolon is now said of another node. Two things can go wrong. An inline
comment can lose the line feed that ends it, and a mixin that is now the last node of its block can
lose the semicolon that it needs. If and only if neither does, all that is left says what it said
before.

## Main results

* `Interior.remove`: the tokens inside a block with one node less.
* `Hole.not_denotes_of_inline`, `Hole.not_denotes_of_mixin`: what goes wrong with an inline comment
  and with a mixin.
* `Dialect.parse_removed_iff`: a style sheet without one of its nodes is printed as a text of the
  other nodes if and only if the container of that node can spare it.
-/

namespace StyleBlocks.Sheet

open Token (texts)

/-! ### The ends of nodes -/

/-- Whether a node is a comment to the end of its line. -/
def Node.isInline : Node → Bool
  | .comment c => c.inline
  | _ => false

/-- What a node says tells if it is a comment to the end of its line. -/
@[simp] theorem Node.isInline_bare (n : Node) : n.bare.isInline = n.isInline := by
  cases n <;> rfl

/-- A comment ends by itself, or it is one to the end of its line. -/
theorem kind_of_commentOf?_cases {g : Grammar} {t : Token} {n : Node}
    (h : commentOf? g t = some n.bare) :
    t.kind = .comment ∨ (t.kind = .lineComment ∧ n.isInline = true) := by
  rw [commentOf?] at h
  split at h
  · next hk => exact Or.inl hk
  · next hk =>
      split at h
      · rw [← Node.isInline_bare, ← Option.some.inj h]
        exact Or.inr ⟨hk, rfl⟩
      · contradiction
  · contradiction

section

variable {g : Grammar} {top : Bool} {front tail ts : List Token} {ms ns A R : List Node} {n : Node}
  {semicolon : Bool} {after closer t u : Text}

/-- Whatever ends a node stops in front of any text, unless the node is an inline comment. -/
theorem Items.stopsAt (h : Items g front ms)
    (hinline : ∀ m ∈ ms.getLast?, m.isInline = true → ∀ c ∈ u.head?, c = '\n') :
    ∀ k ∈ front.getLast?, k.StopsAt u := by
  rcases List.eq_nil_or_concat' ms with rfl | ⟨ms, m, rfl⟩
  · cases h
    simp
  · obtain ⟨us, vs, rfl, -, hvs⟩ := h.split
    have hm : m.isInline = true → ∀ c ∈ u.head?, c = '\n' := hinline m (by simp)
    suffices ∃ ws k, vs = ws ++ [k] ∧ k.StopsAt u by
      obtain ⟨ws, k, rfl, hk⟩ := this
      simpa using hk
    cases hvs with
    | @comment pend _ k _ _ hpend hcomment hprints hrest =>
        cases hrest
        refine ⟨pend, k, rfl, fun c hc => ?_⟩
        rcases kind_of_commentOf?_cases hcomment with hk | ⟨hk, hin⟩
        · simp [Token.Ends, hk]
        · simpa [Token.Ends, hk] using hm hin c hc
    | @leaf pend core back _ k v _ _ hpend hleaf hclosed hback hv htext hneeds hprints hrest =>
        cases hrest
        exact ⟨_, v, rfl, fun c hc => by simp [Token.Ends, hv]⟩
    | @block pend vs inner tail _ k v head _ ks _ _ _ hpend hhead hneeds hprints hinner htail hv
        htext hrest =>
        cases hrest
        exact ⟨pend ++ k :: vs ++ (inner ++ tail), v, by simp, fun c hc => by simp [Token.Ends, hv]⟩

/-- An inline comment is one token. -/
theorem Items.exists_comment (h : Items g front [n]) (hn : n.isInline = true) :
    ∃ pend k, front = pend ++ [k] ∧ (∀ l ∈ pend, Parse.isPending l = true) ∧
      k.kind = .lineComment ∧ commentOf? g k = some n.bare := by
  cases h with
  | @comment pend _ k _ _ hpend hcomment hprints hrest =>
      cases hrest
      refine ⟨pend, k, rfl, hpend, ?_, hcomment⟩
      rcases kind_of_commentOf?_cases hcomment with hk | ⟨hk, -⟩
      · rw [commentOf?, hk] at hcomment
        rw [← Node.isInline_bare, ← Option.some.inj hcomment] at hn
        contradiction
      · exact hk
  | leaf hpend hleaf hclosed hback hv htext hneeds =>
      cases n <;> simp [Node.isInline, Node.needsSemicolon] at hn hneeds
  | @block _ _ _ _ _ _ _ head =>
      cases head <;> simp [Head.close, Node.isInline] at hn

/-! ### The inside of a block with one node less -/

/-- The end of a block is a closing brace, that of a style sheet the end of its text. -/
def IsCloser (t : Text) : Prop :=
  t = [] ∨ t = ['}']

/-- What is left between a node and the end of its block begins with a blank or a semicolon, or is
the end. -/
theorem mem_head?_append_closer (hafter : ∀ c ∈ after, Token.isStyleBlank c = true ∨ c = ';')
    (hcloser : IsCloser closer) :
    ∀ c ∈ (after ++ closer).head?, (Token.isStyleBlank c = true ∨ c = ';') ∨ c = '}' := by
  intro c hc
  rcases List.mem_append.1 (List.mem_of_head? hc) with hc | hc
  · exact Or.inl (hafter c hc)
  · rcases hcloser with rfl | rfl
    · contradiction
    · exact Or.inr (List.mem_singleton.1 hc)

/-- A closing brace is no blank. -/
theorem IsCloser.isStyleBlank_eq_false (h : IsCloser closer) :
    ∀ c ∈ closer.head?, Token.isStyleBlank c = false := by
  rcases h with rfl | rfl
  · simp
  · intro c hc
    obtain rfl : '}' = c := by simpa using hc
    rfl

/-- The raw at the end of a block is made of blanks and stray semicolons. -/
theorem Tail.mem_after (h : Tail g top ms tail ns semicolon after) (hform : ∀ k ∈ tail, k.HasForm) :
    ∀ c ∈ after, Token.isStyleBlank c = true ∨ c = ';' := by
  have hpending : ∀ ks : List Token, (∀ k ∈ ks, k.HasForm) → (∀ k ∈ ks, Parse.isPending k = true) →
      ∀ c ∈ texts ks, Token.isStyleBlank c = true ∨ c = ';' := by
    intro ks hks hpend c hc
    obtain ⟨k, hk, hc⟩ := List.mem_flatMap.1 hc
    rcases Parse.kind_of_isPending (hpend k hk) with hkind | hkind
    · exact Or.inl ((hks k hk).blanks hkind c hc)
    · rw [(hks k hk).text_semicolon hkind] at hc
      exact Or.inr (List.mem_singleton.1 hc)
  cases h with
  | blank hpend => exact hpending _ hform hpend
  | leaf _ _ hbehind _ _ _ hafter =>
      intro c hc
      refine hpending _ (fun k hk => hform k (by simp [hk])) hbehind c ?_
      rw [hafter]
      exact List.mem_append_right _ hc

/-- Blanks and stray semicolons are all that stands behind the last node of a block. -/
theorem Interior.mem_after (h : Interior g top ts ns semicolon after)
    (hform : ∀ k ∈ ts, k.HasForm) :
    ∀ c ∈ after, Token.isStyleBlank c = true ∨ c = ';' := by
  obtain ⟨front, tail, ms, rfl, -, htail⟩ := h
  exact htail.mem_after fun k hk => hform k (List.mem_append_right _ hk)

/-- A leaf that has **lost its semicolon**: its tokens with those in front of it, and behind it the
blanks and stray semicolons of the text `own ++ after`, up to the end of the block. -/
structure LooseLeaf (g : Grammar) (n : Node) (pend : List Token) (t : Token)
    (core behind : List Token) (own after closer : Text) : Prop where
  stray : ∀ k ∈ pend, Parse.isPending k = true
  leaf : Leaf g t core n
  closed : depthAfterAll 0 (t :: core) = 0
  strayBehind : ∀ k ∈ behind, Parse.isPending k = true
  prints : n.Prints (texts (pend ++ t :: core) ++ own)
  texts_behind : texts behind = own ++ after
  blank : ∀ c ∈ own, Token.isStyleBlank c = true
  apart : Token.Apart (pend ++ t :: core ++ behind) closer

/-- A leaf in front of a semicolon can lose it. -/
theorem Items.exists_looseLeaf (h : Items g front [n]) (hn : n.needsSemicolon = true)
    (hfront : Token.Apart front t) (hafter : ∀ c ∈ after, Token.isStyleBlank c = true ∨ c = ';')
    (hcloser : IsCloser closer) :
    ∃ pend k core rest behind own, front = pend ++ k :: core ++ rest ∧
      LooseLeaf g n pend k core behind own after closer := by
  cases h with
  | comment hpend hcomment => simp [needsSemicolon_of_commentOf? hcomment] at hn
  | block hpend hhead hneeds => simp [hneeds] at hn
  | @leaf pend core back _ k v _ _ hpend hleaf hclosed hback hv htext hneeds hprints hrest =>
      cases hrest
      have hall : pend ++ k :: core ++ back ++ [v] = pend ++ k :: core ++ (back ++ [v]) := by simp
      rw [hall] at hfront
      obtain ⟨hcore, hbackv⟩ := Token.apart_append.1 hfront
      have hblank : ∀ c ∈ texts back, Token.isStyleBlank c = true := by
        intro c hc
        obtain ⟨l, hl, hc⟩ := List.mem_flatMap.1 hc
        have hform : l.HasForm := hbackv.hasForm (by simp [hl])
        exact hform.blanks (Token.kind_of_isSpace (hback l hl)) c hc
      -- The blanks in front of the semicolon join those behind it.
      obtain ⟨behind, htexts, hbehind, hapart⟩ := Token.exists_apart_pending
        (t := texts back ++ after) (fun c hc => (List.mem_append.1 hc).elim
          (fun hc => Or.inl (hblank c hc)) (hafter c)) hcloser.isStyleBlank_eq_false
      have hstops : ∀ l ∈ (pend ++ k :: core).getLast?, l.StopsAt (texts behind ++ closer) := by
        intro l hl
        have hsolid : l.isSpace = false := by
          obtain ⟨ws, w, hws, hw⟩ := hleaf.solid
          rw [hws, ← List.append_assoc, List.getLast?_concat] at hl
          rwa [← Option.some.inj hl]
        have hl := hcore.stopsAt hl
        rw [htexts]
        cases hcase : texts back with
        | nil =>
            refine Token.StopsAt.of_semicolon (t := t) hsolid ?_
              (by simpa using mem_head?_append_closer hafter hcloser)
            simpa [hcase, htext] using hl
        | cons c w =>
            rw [Token.texts_append, hcase, List.append_assoc] at hl
            simpa using hl.append (List.cons_ne_nil c w) (after ++ closer)
      exact ⟨pend, k, core, back ++ [v], behind, texts back, hall, hpend, hleaf, hclosed, hbehind,
        by simpa using hprints, htexts, hblank,
        Token.apart_append.2 ⟨hcore.replace hstops, hapart⟩⟩

/-- A leaf without its semicolon can stand at the end of its block, but a mixin needs a semicolon
behind it. -/
theorem LooseLeaf.toTail {pend core behind : List Token} {k : Token} {own : Text}
    (h : LooseLeaf g n pend k core behind own after closer)
    (hmixin : n.isMixin = true → ';' ∈ after) (ms : List Node) :
    Tail g top ms (pend ++ k :: core ++ behind) (ms ++ [n]) false after := by
  refine .leaf h.stray h.leaf h.strayBehind ?_ (Or.inr h.closed) h.prints h.texts_behind
  refine (Bool.eq_false_or_eq_true n.isMixin).symm.imp_right fun hm => ?_
  have hform : ∀ l ∈ behind, l.HasForm := fun l hl => h.apart.hasForm (by simp [hl])
  refine Token.exists_semicolon_of_mem h.strayBehind hform ?_
  rw [h.texts_behind]
  exact List.mem_append_right _ (hmixin hm)

/-- What stands in front of a leaf does not see whether that has lost its semicolon. -/
theorem LooseLeaf.apart_append {pend core behind rest us : List Token} {k : Token} {own : Text}
    (h : LooseLeaf g n pend k core behind own after closer)
    (hus : Token.Apart us (texts (pend ++ k :: core ++ rest) ++ t)) :
    Token.Apart (us ++ (pend ++ k :: core ++ behind)) closer := by
  have hne : texts (pend ++ k :: core) ≠ [] := by
    simp [(h.apart.hasForm (k := k) (by simp)).ne_nil]
  refine Token.apart_append.2 ⟨hus.replace fun l hl => ?_, h.apart⟩
  have hl := hus.stopsAt hl
  rw [Token.texts_append, List.append_assoc] at hl ⊢
  exact hl.append hne _

/-- What stands around a node, with what stands behind it as tokens of their own. -/
theorem Interior.exists_rest (h : Interior g top ts (A ++ n :: R) semicolon after)
    (hts : Token.Apart ts closer) (hcloser : IsCloser closer) :
    ∃ us t vs, Items g us A ∧ Token.Apart us t ∧ Interior g top vs R semicolon after ∧
      Token.Apart vs closer ∧ ∀ c ∈ after, Token.isStyleBlank c = true ∨ c = ';' := by
  have hafter := h.mem_after fun k hk => hts.hasForm hk
  obtain ⟨us, rest, rfl, hus, ⟨rfl, -⟩ | ⟨mid, vs, rfl, -, hvs⟩⟩ := h.around
  · obtain ⟨pend, rfl, hpend, hapart⟩ :=
      Token.exists_apart_pending hafter hcloser.isStyleBlank_eq_false
    exact ⟨us, _, pend, hus, (Token.apart_append.1 hts).1,
      ⟨[], pend, [], rfl, .nil, .blank hpend (by simp)⟩, hapart, hafter⟩
  · obtain ⟨hus', hrest⟩ := Token.apart_append.1 hts
    exact ⟨us, _, vs, hus, hus', hvs, (Token.apart_append.1 hrest).2, hafter⟩

/-- **The inside of a block with one node less.** What stands in front of the removed node and what
stands behind it are the inside of a block together, unless a leaf becomes the last node that has no
semicolon any more. -/
theorem Interior.remove (h : Interior g top ts (A ++ n :: R) semicolon after)
    (hts : Token.Apart ts closer) (hcloser : IsCloser closer) :
    (∃ us t vs, Items g us A ∧ Token.Apart us t ∧ Interior g top vs R semicolon after ∧
      Token.Apart vs closer ∧ Interior g top (us ++ vs) (A ++ R) semicolon after ∧
      (R = [] → ∀ m ∈ A.getLast?, m.needsSemicolon = true → semicolon = true)) ∨
    R = [] ∧ semicolon = false ∧ ∃ A' m us pend k core behind own, A = A' ++ [m] ∧
      m.needsSemicolon = true ∧ Items g us A' ∧ LooseLeaf g m pend k core behind own after closer ∧
      Token.Apart (us ++ (pend ++ k :: core ++ behind)) closer := by
  obtain ⟨us, t, vs, hus, hus', hvs, hvs', hafter⟩ := h.exists_rest hts hcloser
  by_cases hlast : R = [] → ∀ m ∈ A.getLast?, m.needsSemicolon = true → semicolon = true
  · exact Or.inl ⟨us, t, vs, hus, hus', hvs, hvs', hus.append_interior hvs hlast, hlast⟩
  · obtain ⟨rfl, m, hm, hneeds, hfalse⟩ : R = [] ∧ ∃ m ∈ A.getLast?, m.needsSemicolon = true ∧
        ¬ semicolon = true := by simpa using hlast
    obtain ⟨A, rfl⟩ := List.getLast?_eq_some_iff.1 hm
    obtain ⟨us, mid, rfl, hitems, hmid⟩ := hus.split
    obtain ⟨hus', hmid'⟩ := Token.apart_append.1 hus'
    obtain ⟨pend, k, core, rest, behind, own, rfl, hloose⟩ :=
      hmid.exists_looseLeaf hneeds hmid' hafter hcloser
    exact Or.inr ⟨rfl, by simpa using hfalse, A, m, us, pend, k, core, behind, own, rfl, hneeds,
      hitems, hloose, hloose.apart_append hus'⟩

end

/-! ### Style sheets -/

mutual

/-- Places say nothing. -/
theorem Node.bare_unplaced : ∀ n : Node, n.unplaced.bare = n.bare
  | .rule h ns => by simp [Node.unplaced, Node.bare, bareAll_unplacedAll ns]
  | .atRule h ns => by simp [Node.unplaced, Node.bare, bareAll_unplacedAll ns]
  | .atStatement h => rfl
  | .declaration d => rfl
  | .comment c => rfl

/-- Nodes without their places say the same. -/
theorem Node.bareAll_unplacedAll : ∀ ns : List Node, bareAll (unplacedAll ns) = bareAll ns
  | [] => rfl
  | n :: ns => by simp [unplacedAll, bareAll, Node.bare_unplaced n, bareAll_unplacedAll ns]

end

/-- What differs in its places only says the same. -/
theorem bare_eq_of_unplaced_eq {ns ms : List Node}
    (h : Node.unplacedAll ns = Node.unplacedAll ms) : ns.map Node.bare = ms.map Node.bare := by
  rw [← Node.bareAll_eq_map, ← Node.bareAll_eq_map, ← Node.bareAll_unplacedAll ns, h,
    Node.bareAll_unplacedAll]

/-- A text **denotes** nodes if it is parsed as what they say. -/
def Denotes (g : Grammar) (t : Text) (ns : List Node) : Prop :=
  ∃ root, parse g t = .ok root ∧ root.nodes.map Node.bare = ns.map Node.bare

section

variable {g : Grammar} {ts rest : List Token} {ns : List Node} {t after : Text} {semicolon : Bool}
  {root : Root} {b : Body}

/-- What is read of tokens that stand apart is parsed from their text. -/
theorem exists_parse_of_run (hts : Token.Apart ts []) {lines : LineMap}
    (h : Parse.run g lines {} ts = .ok b) :
    ∃ root, parse g (texts ts) = .ok root ∧
      root.nodes.map Node.bare = (b.nodes.map Node.bare).reverse := by
  obtain ⟨us, hunplaced, hus⟩ := hts.exists_tokenizeFrom (LineMap.ofText (texts ts)) 0
  have htokens : Token.tokenize (texts ts) = .ok us := by
    rw [Token.tokenize]
    simpa [Token.tokenizeFrom, Except.map] using hus
  have hcongr := @Parse.run_congr {} {} _ _ rfl hunplaced g (LineMap.ofText (texts ts)) lines
  rw [h] at hcongr
  cases hb : Parse.run g (LineMap.ofText (texts ts)) {} us with
  | error e => simp [hb, unplacedWith] at hcongr
  | ok b' =>
      have hbody : b'.unplaced = b.unplaced := by simpa [hb, unplacedWith] using hcongr
      have hbare := bare_eq_of_unplaced_eq (congrArg Body.nodes hbody)
      refine ⟨_, by rw [parse_eq, htokens, Except.bind, hb]; rfl, ?_⟩
      simp [Body.toRoot, hbare]

/-- What is parsed from the text of tokens that stand apart in front of more text is read of these
tokens and those of the text behind them. -/
theorem exists_run_of_parse (hts : Token.Apart ts t) (h : parse g (texts ts ++ t) = .ok root)
    (lines : LineMap) :
    ∃ rest b, (t = [] → rest = []) ∧ Parse.run g lines {} (ts ++ rest) = .ok b ∧
      root.nodes.map Node.bare = (b.nodes.map Node.bare).reverse := by
  rw [parse_eq] at h
  obtain ⟨lines', hlines'⟩ : ∃ lines', LineMap.ofText (texts ts ++ t) = lines' := ⟨_, rfl⟩
  obtain ⟨us, hunplaced, hus⟩ := hts.exists_tokenizeFrom lines' 0
  rw [Token.tokenize, hlines', hus] at h
  cases hrest : Token.tokenizeFrom lines' (0 + Text.byteSize (texts ts)) t with
  | error e =>
      rw [hrest] at h
      contradiction
  | ok rest =>
      rw [hrest] at h
      obtain ⟨b, hb, rfl⟩ := map_eq_ok_iff.1 h
      have hall : (us ++ rest).map Token.unplaced = (ts ++ rest).map Token.unplaced := by
        simp [hunplaced]
      have hcongr := @Parse.run_congr {} {} _ _ rfl hall g lines' lines
      rw [hb] at hcongr
      cases hb' : Parse.run g lines {} (ts ++ rest) with
      | error e => simp [hb', unplacedWith] at hcongr
      | ok b' =>
          have hbody : b.unplaced = b'.unplaced := by simpa [hb', unplacedWith] using hcongr
          have hbare := bare_eq_of_unplaced_eq (congrArg Body.nodes hbody)
          refine ⟨rest, b', ?_, hb', by simp [Body.toRoot, hbare]⟩
          rintro rfl
          simpa [Token.tokenizeFrom] using hrest.symm

/-- **The text of nodes** denotes them. -/
theorem Interior.denotes (h : Interior g true ts ns semicolon after) (hts : Token.Apart ts []) :
    Denotes g (texts ts) ns := by
  have hend : ∀ k ∈ ([] : List Token).head?, true = false ∧ k.kind = .closeCurly := by simp
  obtain ⟨q, hq, hblocks, hnodes⟩ := h.run_eq hend (LineMap.ofText []) {}
  rw [List.append_nil, Parse.run, hblocks] at hq
  obtain ⟨root, hroot, hbare⟩ := exists_parse_of_run hts hq
  exact ⟨root, hroot, by simp [hbare, hnodes]⟩

/-- What has been parsed has the tokens of its nodes. -/
theorem interior_of_parse {root : Root} (h : parse g t = .ok root) :
    ∃ ts, Interior g true ts root.nodes root.semicolon (root.after.getD []) ∧ Token.Apart ts [] ∧
      root.after.isSome := by
  rw [parse_eq] at h
  cases hts : Token.tokenize t with
  | error e => simp [hts, Except.bind] at h
  | ok ts =>
      rw [hts] at h
      obtain ⟨b, hb, rfl⟩ := map_eq_ok_iff.1 h
      have hnil : ∀ k ∈ ([] : List Token), Parse.isPending k = true := by simp
      obtain ⟨inner, rest, new, semicolon, after, hall, -, hinner, -, hrest, hrun⟩ :=
        Parse.told_of_run (fun k hk => Token.hasForm_of_mem hts hk) hnil rfl hb
      cases rest with
      | nil =>
          obtain rfl : ts = inner := by simpa using hall
          rw [Parse.run] at hrun
          obtain rfl := Except.ok.inj hrun
          exact ⟨ts, by simpa [Body.toRoot] using hinner, Token.apart_of_tokenizeFrom hts, rfl⟩
      | cons v vs =>
          have hv : v.kind = .closeCurly := hrest v rfl
          simp [Parse.run_cons, Parse.step, hv, Except.bind] at hrun

end

/-! ### What goes wrong -/

section

variable {g : Grammar} {inTop : Bool} {left right us ts : List Token} {fill : List Node → List Node}
  {b c : Container} {A R : List Node} {n : Node} {after t u : Text} {root : Root}

/-- A comment up to the end of its line goes on if more text is put behind it. -/
theorem shape_lineComment_append {k : Token} {w : Text} (h : Token.Shape k.kind k.text)
    (hk : k.kind = .lineComment) (hw : '\n' ∉ w) : Token.Shape .lineComment (k.text ++ w) := by
  rw [hk] at h
  generalize k.text = v at h
  cases h with
  | lineComment hv => exact .lineComment (by simp [hv, hw])
  | mark h => simp [Token.marks] at h

/-- What a comment up to the end of its line says is told by its text. -/
theorem commentOf?_lineComment {k : Token} (hinline : g.inlineComments = true)
    (hk : k.kind = .lineComment) :
    commentOf? g k = some (.comment { text := k.text.drop 2, inline := true }) := by
  rw [commentOf?, hk]
  simp [hinline, List.take_of_length_le]

/-- A text that does not begin with a line feed is cut in front of its first one. -/
theorem exists_line_append (ht : ∃ d ∈ t.head?, d ≠ '\n') :
    ∃ w v, t = w ++ v ∧ '\n' ∉ w ∧ w ≠ [] ∧ ∀ d ∈ v.head?, d = '\n' := by
  obtain ⟨d, hd, hnd⟩ := ht
  obtain ⟨t, rfl⟩ := List.head?_eq_some_iff.1 hd
  refine ⟨(d :: t).takeWhile (· ≠ '\n'), (d :: t).dropWhile (· ≠ '\n'), by simp, ?_, ?_, ?_⟩
  · exact fun hmem => by simpa using List.mem_takeWhile_imp hmem
  · simp [hnd]
  · intro e he
    have := List.head?_dropWhile_not (fun e : Char => decide (e ≠ '\n')) (d :: t)
    rw [Option.mem_def.1 he] at this
    simpa using this

/-- A text behind a comment up to the end of its line goes on the comment, up to the next line feed.
-/
theorem exists_run_of_lineComment {k : Token} (hapart : Token.Apart (ts ++ [k]) u)
    (hk : k.kind = .lineComment) (ht : ∃ d ∈ t.head?, d ≠ '\n')
    (hparse : parse g (texts (ts ++ [k]) ++ t) = .ok root) (lines : LineMap) :
    ∃ l w rest b, l.kind = .lineComment ∧ l.text = k.text ++ w ∧ w ≠ [] ∧
      Parse.run g lines {} (ts ++ l :: rest) = .ok b ∧
      root.nodes.map Node.bare = (b.nodes.map Node.bare).reverse := by
  obtain ⟨w, v, rfl, hw, hne, hv⟩ := exists_line_append ht
  obtain ⟨l, hkind, htext⟩ : ∃ l : Token, l.kind = .lineComment ∧ l.text = k.text ++ w :=
    ⟨⟨.lineComment, k.text ++ w, 0⟩, rfl, rfl⟩
  obtain ⟨hfront, hshape, -, -⟩ := Token.apart_append.1 hapart
  have hapart' : Token.Apart (ts ++ [l]) v := by
    refine Token.apart_append.2 ⟨hfront.replace fun m hm => ?_, ?_, ?_, trivial⟩
    · have hm := hfront.stopsAt hm
      simp only [Token.texts_cons, htext, List.append_assoc] at hm ⊢
      exact hm.append hshape.ne_nil _
    · rw [hkind, htext]
      exact shape_lineComment_append hshape hk hw
    · intro e he
      simpa [Token.Ends, hkind] using hv e he
  have hparse' : parse g (texts (ts ++ [l]) ++ v) = .ok root := by
    rw [← hparse]
    simp [htext]
  obtain ⟨rest, b, -, hrun, hbare⟩ := exists_run_of_parse hapart' hparse' lines
  exact ⟨l, w, rest, b, hkind, htext, hne, by simpa using hrun, hbare⟩

/-- If a comment has been read in a hole, behind nodes, then nothing that has another comment in its
place there says the same as what is read in the end. -/
theorem Hole.bare_eq_of_run {pend rest : List Token} {l : Token} {d m : Comment} {q : Body}
    {lines : LineMap} (hole : Hole g inTop true left right fill c b) (hus : Items g us A)
    (hpend : ∀ k ∈ pend, Parse.isPending k = true)
    (hl : commentOf? g l = some (Node.comment m).bare)
    (hrun : Parse.run g lines {} (left ++ (us ++ (pend ++ l :: rest))) = .ok q)
    (hq : (q.nodes.map Node.bare).reverse = (fill (A ++ .comment d :: R)).map Node.bare) :
    (Node.comment d).bare = (Node.comment m).bare := by
  obtain ⟨new, henter, hfill⟩ := hole.enters
  obtain ⟨r, hr, hnew⟩ := henter lines {} (us ++ (pend ++ l :: rest))
  obtain ⟨s, hs, hnodes⟩ := hus.run_eq lines r (pend ++ l :: rest)
  obtain ⟨s', hs', hcomment⟩ := Parse.exists_run_comment hpend hl lines s rest
  rw [hr, hs, hs'] at hrun
  obtain ⟨more, hmore⟩ := Parse.exists_outline_of_run hrun
  obtain ⟨more', hmore'⟩ := hfill (A ++ .comment d :: R)
  have houtline : Node.outline q.nodes.reverse = Node.outline (fill (A ++ .comment d :: R)) :=
    Node.outline_congr (by rw [List.map_reverse, hq])
  have hnil : ({} : Parse).outline = [] := rfl
  rw [hmore, hmore', hcomment.outline_eq, hnodes.outline_eq, hnew] at houtline
  simp only [hnil, List.nil_append, Node.outline_append, Node.outline_comment,
    Node.outline_nil, List.append_assoc, List.cons_append] at houtline
  have hcons := List.append_cancel_left (List.append_cancel_left houtline)
  exact (List.cons.inj hcons).1.symm

/-- **An inline comment that has lost its line feed** goes on, and is another comment. -/
theorem Hole.not_denotes_of_inline (hole : Hole g inTop true left right fill c b)
    (hus : Items g us (A ++ [n])) (hn : n.isInline = true) (hapart : Token.Apart (left ++ us) u)
    (ht : ∃ d ∈ t.head?, d ≠ '\n') :
    ¬ Denotes g (texts (left ++ us) ++ t) (fill (A ++ n :: R)) := by
  rintro ⟨root, hparse, hbare⟩
  obtain ⟨us, vs, rfl, hitems, hvs⟩ := hus.split
  obtain ⟨pend, k, rfl, hpend, hk, hcomment⟩ := hvs.exists_comment hn
  have hall : left ++ (us ++ (pend ++ [k])) = left ++ us ++ pend ++ [k] := by simp
  rw [hall] at hapart hparse
  obtain ⟨l, w, rest, b', hl, htext, hw, hrun, hbare'⟩ :=
    exists_run_of_lineComment hapart hk ht hparse (LineMap.ofText [])
  -- Up to the comment the same is read as before, and then the longer comment.
  have hinline : g.inlineComments = true := by
    by_contra hg
    simp [commentOf?, hk, hg] at hcomment
  obtain ⟨m, hm⟩ : ∃ m : Comment, m = { text := l.text.drop 2, inline := true } := ⟨_, rfl⟩
  have hl' : commentOf? g l = some (Node.comment m).bare := by
    rw [commentOf?_lineComment hinline hl, hm]
    rfl
  obtain ⟨d, rfl⟩ := exists_comment_of_commentOf? hcomment
  have hsame : (Node.comment d).bare = (Node.comment m).bare :=
    hole.bare_eq_of_run hitems hpend hl' (by simpa using hrun) (hbare'.symm.trans hbare)
  obtain ⟨inner, hinner, -⟩ : ∃ inner, k.text = '/' :: '/' :: inner ∧ '\n' ∉ inner := by
    have hform : k.HasForm := hapart.hasForm (by simp)
    simpa [Token.HasForm, hk] using hform
  rw [hsame, commentOf?_lineComment hinline hk, hm, htext, hinner] at hcomment
  simp [Node.bare] at hcomment
  exact hw hcomment

/-- **A mixin that has lost its semicolon** is an error. -/
theorem Hole.not_denotes_of_mixin {pend core behind : List Token} {k : Token} {own closer : Text}
    (hole : Hole g inTop true left right fill c b) (hus : Items g us A)
    (hloose : LooseLeaf g n pend k core behind own after closer) (hmixin : n.isMixin = true)
    (hafter : ';' ∉ after)
    (hapart : Token.Apart (left ++ (us ++ (pend ++ k :: core ++ behind)) ++ right) [])
    (ns : List Node) :
    ¬ Denotes g (texts (left ++ (us ++ (pend ++ k :: core ++ behind)) ++ right)) ns := by
  rintro ⟨root, hparse, -⟩
  rw [← List.append_nil (texts _)] at hparse
  obtain ⟨rest, b', hrest, hrun, -⟩ := exists_run_of_parse hapart hparse (LineMap.ofText [])
  obtain rfl := hrest rfl
  have hspaces : ∀ l ∈ behind, l.isSpace = true := by
    intro l hl
    rcases Parse.kind_of_isPending (hloose.strayBehind l hl) with hkind | hkind
    · simp [Token.isSpace, hkind]
    · have hform : l.HasForm := hloose.apart.hasForm (by simp [hl])
      have hmem : ';' ∈ own ++ after := by
        rw [← hloose.texts_behind]
        exact List.mem_flatMap.2 ⟨l, hl, by simp [hform.text_semicolon hkind]⟩
      have hown := hloose.blank ';' ((List.mem_append.1 hmem).resolve_right hafter)
      exact absurd hown (by decide)
  obtain ⟨new, henter, -⟩ := hole.enters
  obtain ⟨q, hq, -⟩ :=
    henter (LineMap.ofText []) {} (us ++ (pend ++ k :: (core ++ behind ++ right)))
  obtain ⟨r, hr, -⟩ :=
    hus.run_eq (LineMap.ofText []) q (pend ++ k :: (core ++ behind ++ right))
  have hread := hloose.leaf.readStatement_mixin hmixin hspaces
    (fun l hl => ⟨hloose.closed, hole.brace l hl⟩) (LineMap.ofText [])
    (r.body.pending ++ texts pend)
  have hall : left ++ (us ++ (pend ++ k :: core ++ behind)) ++ right ++ [] =
      left ++ (us ++ (pend ++ k :: (core ++ behind ++ right))) := by simp
  rw [hall, hq, hr, Parse.run_pending hloose.stray, Parse.run_cons,
    Parse.step_statement hloose.leaf.begins.notPending hloose.leaf.begins.notClose, hread] at hrun
  contradiction

end

/-! ### Nodes that can be spared -/

/-- What is printed from the node with an index on, up to the end of the container. -/
def Container.textFrom (b : Container) (i : Nat) : Text :=
  Fragment.texts (({} : Printer).nodes 0 false b.semicolon (b.nodes.drop i)) ++ b.after ++ b.closer

/-- A container **can spare** the node with an index, as far as the node in front of it goes: if
that is an inline comment, a line feed or nothing at all comes next; and if that is a mixin that
becomes the last node, it keeps its semicolon or finds another one. -/
structure Container.CanSpare (b : Container) (i : Nat) : Prop where
  inline : ∀ m ∈ (b.nodes.take i).getLast?, m.isInline = true →
    ∀ c ∈ (b.textFrom (i + 1)).head?, c = '\n'
  mixin : b.nodes.drop (i + 1) = [] → ∀ m ∈ (b.nodes.take i).getLast?, m.isMixin = true →
    b.semicolon = true ∨ ';' ∈ b.after

section

variable {g : Grammar} {inTop : Bool} {left inner right us vs : List Token}
  {fill : List Node → List Node} {b c : Container} {A R : List Node} {p : Path} {i : Nat}
  {t u : Text}

/-- The end of any container below one is a brace. -/
theorem Container.isCloser_of_at? (hb : IsCloser b.closer) (h : b.at? p = some c) :
    IsCloser c.closer := by
  induction p generalizing b with
  | nil =>
      obtain rfl : b = c := by simpa [Container.at?] using h
      exact hb
  | cons i p ih =>
      obtain ⟨n, -, d, hd, hp⟩ : ∃ n, b.nodes[i]? = some n ∧
          ∃ d, n.container? = some d ∧ d.at? p = some c := by
        simpa [Container.at?, Option.bind_eq_some_iff] using h
      refine ih ?_ hp
      cases n <;> simp [Node.container?] at hd <;> subst hd <;> exact Or.inr rfl

/-- The node at a path is removed by an edit of the block around it. -/
theorem Node.remove?_concat (ns : List Node) (p : Path) (i : Nat) :
    Node.remove? ns (p ++ [i]) =
      Node.editBlock? (fun ns => if i < ns.length then some (ns.eraseIdx i) else none) ns p := by
  simp [remove?, editAround?]

/-- A mixin needs a semicolon. -/
theorem Node.needsSemicolon_of_isMixin {n : Node} (h : n.isMixin = true) :
    n.needsSemicolon = true := by
  cases n <;> simp_all [Node.isMixin, Node.needsSemicolon]

/-- A node that needs a semicolon is no comment to the end of its line. -/
theorem Node.isInline_eq_false {n : Node} (h : n.needsSemicolon = true) : n.isInline = false := by
  cases n <;> simp_all [Node.isInline, Node.needsSemicolon]

/-- Nodes put beside each other are denoted by their text, unless that goes on an inline comment. -/
theorem Hole.denotes_iff_of_interior (hole : Hole g inTop true left right fill c b)
    (hb : b.closer = []) (hleft : Token.Apart left t)
    (hfill : ∀ us, Token.Apart us c.closer → Token.Apart (left ++ us ++ right) [])
    (hus : Items g us A) (hus' : Token.Apart us u) (hvs : Token.Apart vs c.closer)
    (hall : Interior g inTop (us ++ vs) (A ++ R) c.semicolon c.after) :
    Denotes g (texts (left ++ (us ++ vs) ++ right)) (fill (A ++ R)) ↔
      ∀ m ∈ A.getLast?, m.isInline = true → ∀ d ∈ (texts vs ++ c.closer).head?, d = '\n' := by
  refine ⟨fun hdenotes m hm hin => ?_, fun hinline => ?_⟩
  · by_contra hline
    obtain ⟨A, rfl⟩ := List.getLast?_eq_some_iff.1 hm
    have ht : ∃ d ∈ (texts vs ++ texts right).head?, d ≠ '\n' := by
      rw [List.head?_append, ← hole.closes, hb, List.append_nil, ← List.head?_append] at hline
      simpa using hline
    refine hole.not_denotes_of_inline (R := R) hus hin
      (Token.apart_append.2 ⟨hole.apart_left hleft _, hus'⟩) ht ?_
    simpa using hdenotes
  · have hapart : Token.Apart (us ++ vs) c.closer :=
      Token.apart_append.2 ⟨hus'.replace (hus.stopsAt hinline), hvs⟩
    exact (hole.interior hall).denotes (hfill _ hapart)

/-- Nodes of which the last has lost its semicolon are denoted by their text, unless that is a mixin
and finds no other semicolon. -/
theorem Hole.denotes_iff_of_looseLeaf {pend core behind : List Token} {k : Token} {own : Text}
    {m : Node} (hole : Hole g inTop true left right fill c b) (hus : Items g us A)
    (hloose : LooseLeaf g m pend k core behind own c.after c.closer) (hfalse : c.semicolon = false)
    (hapart : Token.Apart (left ++ (us ++ (pend ++ k :: core ++ behind)) ++ right) []) :
    Denotes g (texts (left ++ (us ++ (pend ++ k :: core ++ behind)) ++ right)) (fill (A ++ [m])) ↔
      (m.isMixin = true → ';' ∈ c.after) := by
  refine ⟨fun hdenotes hmixin => ?_, fun hmixin => ?_⟩
  · by_contra hafter
    exact hole.not_denotes_of_mixin hus hloose hmixin hafter hapart _ hdenotes
  · have hall : Interior g inTop _ (A ++ [m]) c.semicolon c.after :=
      ⟨us, _, A, rfl, hus, hfalse ▸ hloose.toTail hmixin A⟩
    exact (hole.interior hall).denotes hapart

/-- **In a hole, a node can be removed if and only if it can be spared.** -/
theorem Hole.denotes_removed_iff (hole : Hole g inTop true left right fill c b)
    (hb : b.closer = []) (hinner : Interior g inTop inner c.nodes c.semicolon c.after)
    (hcloser : IsCloser c.closer) (hapart : Token.Apart (left ++ inner ++ right) [])
    (hi : i < c.nodes.length) :
    ∃ t, b.Prints (fill (c.nodes.eraseIdx i)) t ∧
      (Denotes g t (fill (c.nodes.eraseIdx i)) ↔ c.CanSpare i) := by
  have hleft := (Token.apart_append.1 (Token.apart_append.1 hapart).1).1
  have hholes := hole.apart (hb.symm ▸ hapart)
  rw [hb] at hholes
  obtain ⟨hinner', hfill⟩ := hholes
  rw [exists_append_cons (List.getElem?_eq_getElem hi)] at hinner
  rw [List.eraseIdx_eq_take_drop_succ]
  rcases hinner.remove hinner' hcloser with ⟨us, u, vs, hus, hus', hvs, hvs', hall, hlast⟩ |
    ⟨hR, hfalse, A, m, us, pend, k, core, behind, own, hA, hneeds, hus, hloose, hus'⟩
  · have hiff := hole.denotes_iff_of_interior hb hleft hfill hus hus' hvs' hall
    refine ⟨_, hole.prints hall.prints, ?_⟩
    rw [← Token.texts_append, ← Token.texts_append, hiff]
    refine ⟨fun hinline => ⟨?_, fun hnil m hm hmixin => ?_⟩, fun hspare => ?_⟩
    · rwa [Container.textFrom, hvs.prints]
    · exact Or.inl (hlast hnil m hm (Node.needsSemicolon_of_isMixin hmixin))
    · have hinline := hspare.inline
      rwa [Container.textFrom, hvs.prints] at hinline
  · have hprints : c.Prints (A ++ [m]) (texts (us ++ (pend ++ k :: core ++ behind))) := by
      intro depth first
      rw [hfalse, Printer.nodes_concat, Fragment.texts_append, hus.prints, Fragment.texts_append,
        hloose.prints]
      simp [hloose.texts_behind]
    have hiff := hole.denotes_iff_of_looseLeaf hus hloose hfalse (hfill _ hus')
    rw [hR, List.append_nil, hA]
    refine ⟨_, hole.prints hprints, ?_⟩
    rw [← Token.texts_append, ← Token.texts_append, hiff]
    have hm : ∀ m' ∈ (c.nodes.take i).getLast?, m = m' := by simp [hA]
    refine ⟨fun hmixin => ⟨fun m' hm' hin => ?_, fun _ m' hm' hmix => ?_⟩, fun hspare hmix => ?_⟩
    · obtain rfl := hm m' hm'
      simp [Node.isInline_eq_false hneeds] at hin
    · obtain rfl := hm m' hm'
      exact Or.inr (hmixin hmix)
    · have := hspare.mixin hR m (by simp [hA]) hmix
      simpa [hfalse] using this

end

/-- **Removing a node leaves the rest, if its container can spare it.** In every dialect, whatever
node is removed from a style sheet that has been parsed: what is printed then is parsed as a style
sheet that says the same as the other nodes if and only if neither an inline comment in front of the
removed node loses the line feed behind it nor a mixin its semicolon. -/
theorem Dialect.parse_removed_iff {d : Dialect} {origin : Option Text} {t : Text} {root : Root}
    {c : Container} {p : Path} {i : Nat} (hroot : d.parse origin t = .ok root)
    (hc : root.container.at? p = some c) (hi : i < c.nodes.length) :
    ∃ ns, Node.remove? root.nodes (p ++ [i]) = some ns ∧
      ((∃ root', d.parse origin (Root.render { root with nodes := ns }) = .ok root' ∧
        root'.nodes.map Node.bare = ns.map Node.bare) ↔ c.CanSpare i) := by
  obtain ⟨sheet, hsheet, rfl⟩ := map_eq_ok_iff.1 hroot
  obtain ⟨ts, hts, hapart, hafter⟩ := interior_of_parse hsheet
  have hne : c.nodes ≠ [] := List.ne_nil_of_length_pos (by omega)
  obtain ⟨inTop, left, inner, right, fill, rfl, hinner, hole, hedit⟩ :=
    Container.exists_hole (b := sheet.container) hts hc hne
  obtain ⟨u, hprints, hiff⟩ := hole.denotes_removed_iff rfl hinner
    (Container.isCloser_of_at? (Or.inl rfl) hc) hapart hi
  obtain ⟨after, hsome⟩ := Option.isSome_iff_exists.1 hafter
  refine ⟨fill (c.nodes.eraseIdx i), ?_, ?_⟩
  · rw [Node.remove?_concat]
    exact (hedit _).trans (by rw [if_pos hi]; rfl)
  have hrender :
      Root.render { sheet with nodes := fill (c.nodes.eraseIdx i), origin := origin } = u := by
    rw [← hprints 0 true]
    simp [Root.render, Printer.root, Fragment.texts_append, Fragment.texts_emit, Printer.lookUp,
      Overrides.none, Root.container, hsome]
  rw [hrender, ← hiff]
  constructor
  · rintro ⟨root', hroot', hbare⟩
    obtain ⟨r, hr, rfl⟩ := map_eq_ok_iff.1 hroot'
    exact ⟨r, hr, hbare⟩
  · rintro ⟨r, hr, hbare⟩
    exact ⟨{ r with origin := origin }, by rw [Dialect.parse, hr]; rfl, hbare⟩

/-- In front of a removed declaration, another one loses its semicolon, but a mixin must not. -/
theorem Dialect.parse_removed_iff_mixin :
    (∃ root ns root', Dialect.css.parse none "a{b:c;d:e}".toList = .ok root ∧
      Node.remove? root.nodes [0, 1] = some ns ∧
      Dialect.css.parse none (Root.render { root with nodes := ns }) = .ok root' ∧
      root'.nodes.map Node.bare = ns.map Node.bare) ∧
    ∃ root ns, Dialect.less.parse none ".m();a{}".toList = .ok root ∧
      Node.remove? root.nodes [1] = some ns ∧
      ∀ root', Dialect.less.parse none (Root.render { root with nodes := ns }) = .ok root' →
        root'.nodes.map Node.bare ≠ ns.map Node.bare := by
  have hcontainer : ∀ (d : Dialect) (t : Text) (p : Path) (isMixin : Bool),
      ((d.parse none t).toOption.bind fun r => (r.container.at? p).map fun c =>
        (c.nodes.length, (c.nodes.take 1).getLast?.map fun m => (m.isInline, m.isMixin),
          c.semicolon, c.after)) = some (2, some (false, isMixin), false, []) →
      ∃ root c m, d.parse none t = .ok root ∧ root.container.at? p = some c ∧ c.nodes.length = 2 ∧
        (c.nodes.take 1).getLast? = some m ∧ m.isInline = false ∧ m.isMixin = isMixin ∧
        c.semicolon = false ∧ c.after = [] := by
    intro d t p isMixin h
    obtain ⟨root, hroot, h⟩ := Option.bind_eq_some_iff.1 h
    obtain ⟨c, hc, h⟩ := Option.map_eq_some_iff.1 h
    obtain ⟨hlength, ⟨m, hm, hin, hmix⟩, hs, ha⟩ : c.nodes.length = 2 ∧
        (∃ m, (c.nodes.take 1).getLast? = some m ∧ m.isInline = false ∧ m.isMixin = isMixin) ∧
        c.semicolon = false ∧ c.after = [] := by
      simpa [Option.map_eq_some_iff] using h
    refine ⟨root, c, m, ?_, hc, hlength, hm, hin, hmix, hs, ha⟩
    cases hp : d.parse none t with
    | error e => simp [hp, Except.toOption] at hroot
    | ok r => simpa [hp, Except.toOption] using hroot
  obtain ⟨root, c, m, hroot, hc, hlength, hm, hin, hmix, -, -⟩ :=
    hcontainer .css "a{b:c;d:e}".toList [0] false (by decide +kernel)
  obtain ⟨less, e, k, hless, he, hlength', hk, -, hmix', hs, ha⟩ :=
    hcontainer .less ".m();a{}".toList [] true (by decide +kernel)
  refine ⟨?_, ?_⟩
  · obtain ⟨ns, hns, hiff⟩ := @Dialect.parse_removed_iff _ _ _ _ _ _ 1 hroot hc (by omega)
    have hspare : c.CanSpare 1 := by constructor <;> simp [hm, hin, hmix]
    obtain ⟨root', hroot', hbare⟩ := hiff.2 hspare
    exact ⟨root, ns, root', hroot, hns, hroot', hbare⟩
  · obtain ⟨ns, hns, hiff⟩ := @Dialect.parse_removed_iff _ _ _ _ _ _ 1 hless he (by omega)
    refine ⟨less, ns, hless, hns, fun root' hroot' hbare => ?_⟩
    have hspare := hiff.1 ⟨root', hroot', hbare⟩
    have hdrop : e.nodes.drop (1 + 1) = [] := List.drop_eq_nil_of_le (by omega)
    have := hspare.mixin hdrop k hk hmix'
    simp [hs, ha] at this

end StyleBlocks.Sheet
