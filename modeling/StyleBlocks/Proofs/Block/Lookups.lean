import StyleBlocks.Proofs.Sheet.NodeSpans
import StyleBlocks.Proofs.Sheet.Slots

/-!
# Where the texts of a style sheet are looked up

The parser cuts the texts of a node out of its tokens and keeps no places but the range of the
whole node. A relocation has to know where each text stands, as the indentation that it puts back
is the one of that line, and works the places out from the range: what stands in front of a node
ends where the node starts, its texts follow one another from there, and what stands at the end of
a block ends in front of its brace. For a style sheet that was parsed, these are the places where
the texts stand.

## Main definitions

* `Lookup`: a text, and the offset at which a relocation takes it to stand.
* `Node.lookups`, `Root.lookups`: all that a relocation looks up for a node and for a style sheet.

## Main results

* `Relocation.corrections_node`: the corrections of a node are those of its lookups.
* `Parse.Located.step`: a step of the parser leaves all texts where they are looked up.
* `lookups_of_parse`: every text of a parsed style sheet stands where it is looked up.
-/

namespace StyleBlocks

/-- A text **stands at** an offset of another one. -/
def Text.StandsAt (s : Text) (start : Nat) (t : Text) : Prop :=
  Text.slice? start (start + Text.byteSize t) s = some t

/-- What stands between two parts of a text. -/
theorem Text.standsAt_append (p t q : Text) : Text.StandsAt (p ++ t ++ q) (Text.byteSize p) t := by
  have h := Text.slice?_append p t q
  rwa [Text.byteSize_append] at h

namespace Sheet

open Relocation (Ownership sizeOf?)

/-! ### Lookups -/

/-- A **lookup**: a text of a node, and where a relocation takes it to stand. -/
structure Lookup where
  /-- The name of the text. -/
  key : RawKey
  /-- The text. -/
  text : Text
  /-- The offset at which it is taken to stand. -/
  start : Nat
  /-- The starts of lines that belong to it. -/
  ownership : Ownership
deriving DecidableEq, Repr

/-- What a relocation records for a lookup. -/
def Lookup.record (r : Relocation) (cs : Corrections) (l : Lookup) : Corrections :=
  r.record l.key l.text l.start l.ownership cs

/-- The lookup of a raw that may be missing. -/
def Lookup.ofRaw (key : RawKey) (raw : Option Text) (start : Nat) (o : Ownership) : List Lookup :=
  raw.toList.map fun t => ⟨key, t, start, o⟩

/-- A raw that may be missing, with its name. -/
def RawKey.texts (key : RawKey) (raw : Option Text) : List (RawKey × Text) :=
  raw.toList.map fun t => (key, t)

/-- The lookups of texts that follow one another from an offset on. -/
def Lookup.inTurn (start : Nat) : List (RawKey × Text) → List Lookup
  | [] => []
  | (key, t) :: ts => ⟨key, t, start, .inner⟩ :: inTurn (start + Text.byteSize t) ts

namespace Node

/-- What stands in front of a node. -/
def before? : Node → Option Text
  | rule h _ => h.before
  | atRule h _ | atStatement h => h.before
  | declaration d => d.before
  | comment c => c.before

/-- What a node begins with in front of the texts that are looked up. -/
def mark : Node → Text
  | rule .. | declaration .. => []
  | atRule h _ | atStatement h => '@' :: h.name
  | comment c => if c.inline then ['/', '/'] else ['/', '*']

/-- The texts of a node that follow one another behind its mark. -/
def innerTexts : Node → List (RawKey × Text)
  | rule h _ => (.value, h.selector) :: RawKey.between.texts h.between
  | atRule h _ | atStatement h =>
    RawKey.afterName.texts h.afterName ++ (.value, h.params) :: RawKey.between.texts h.between
  | declaration d =>
    (.prop, d.prop) ::
      (RawKey.between.texts d.between ++ (.value, d.value) :: RawKey.after.texts d.after)
  | comment c => [(.value, c.text)]

/-- What stands in front of the brace that closes the block of a node. -/
def closing? : Node → Option Text
  | rule h _ => h.after
  | atRule h _ => h.after
  | _ => none

/-- The lookups of the texts of a node up to the brace of its block, if it starts at an offset. -/
def headLookups (n : Node) (start : Nat) : List Lookup :=
  Lookup.ofRaw .before n.before? (start - sizeOf? n.before?) .lineStart ++
    Lookup.inTurn (start + Text.byteSize n.mark) n.innerTexts

/-- All that a relocation looks up for a node. -/
def lookups (n : Node) : List Lookup :=
  match n.source? with
  | none => []
  | some a =>
    n.headLookups a.span.start ++
      Lookup.ofRaw .after n.closing? (a.span.stop - (1 + sizeOf? n.closing?)) .inner

end Node

/-- What a relocation looks up for a style sheet as a whole, in a text of a given size. -/
def Root.lookups (size : Nat) (root : Root) : List Lookup :=
  Lookup.ofRaw .after root.after (size - sizeOf? root.after) .trailing

end Sheet

/-! ### Relocations record their lookups -/

namespace Relocation

open Sheet

section

variable (r : Relocation) (cs : Corrections)

/-- The lookup of a raw that may be missing is recorded if there is one. -/
@[simp] theorem foldl_ofRaw (key : RawKey) (raw : Option Text) (start : Nat) (o : Ownership) :
    (Lookup.ofRaw key raw start o).foldl (Lookup.record r) cs = r.record? key raw start o cs := by
  cases raw <;> rfl

@[simp] theorem foldl_inTurn_cons (start : Nat) (key : RawKey) (t : Text)
    (ts : List (RawKey × Text)) :
    (Lookup.inTurn start ((key, t) :: ts)).foldl (Lookup.record r) cs =
      (Lookup.inTurn (start + Text.byteSize t) ts).foldl (Lookup.record r)
        (r.record key t start .inner cs) :=
  rfl

/-- A raw that may be missing is recorded in front of the texts behind it, which stand at its
end. -/
@[simp] theorem foldl_inTurn_texts_append (start : Nat) (key : RawKey) (raw : Option Text)
    (ts : List (RawKey × Text)) :
    (Lookup.inTurn start (key.texts raw ++ ts)).foldl (Lookup.record r) cs =
      (Lookup.inTurn (start + sizeOf? raw) ts).foldl (Lookup.record r)
        (r.record? key raw start .inner cs) := by
  cases raw <;> rfl

/-- A raw that may be missing is recorded, if nothing is behind it. -/
@[simp] theorem foldl_inTurn_texts (start : Nat) (key : RawKey) (raw : Option Text) :
    (Lookup.inTurn start (key.texts raw)).foldl (Lookup.record r) cs =
      r.record? key raw start .inner cs := by
  cases raw <;> rfl

end

/-- **The corrections of a node are those of its lookups**, recorded in their order. -/
theorem corrections_node (r : Relocation) {n : Node} {a : Range} (hn : n.source? = some a) :
    (r.node n).corrections = n.lookups.foldl (Lookup.record r) ∅ := by
  have hat (name : Text) : Text.byteSize ('@' :: name) = 1 + Text.byteSize name := rfl
  cases n with
  | rule h ns =>
      simp only [Node.source?] at hn
      simp [node, ruleHead, hn, ruleCorrections, recordBefore, recordAfter, Node.corrections,
        Node.lookups, Node.source?, Node.headLookups, Node.before?, Node.mark, Node.innerTexts,
        Node.closing?]
  | atRule h ns | atStatement h =>
      simp only [Node.source?] at hn
      simp [node, atRuleHead, hn, atRuleCorrections, recordBefore, recordAfter, Node.corrections,
        Node.lookups, Node.source?, Node.headLookups, Node.before?, Node.mark, Node.innerTexts,
        Node.closing?, hat, Nat.add_assoc, record?]
  | declaration d =>
      simp only [Node.source?] at hn
      simp [node, declaration, hn, declarationCorrections, recordBefore, Node.corrections,
        Node.lookups, Node.source?, Node.headLookups, Node.before?, Node.mark, Node.innerTexts,
        Node.closing?, record?]
  | comment c =>
      have hmark : Text.byteSize (Node.comment c).mark = 2 := by
        rw [Node.mark]
        split <;> rfl
      simp only [Node.source?] at hn
      simp [node, comment, hn, commentCorrections, recordBefore, Node.corrections,
        Node.lookups, Node.source?, Node.headLookups, Node.before?, hmark, Node.innerTexts,
        Node.closing?, record?, Lookup.inTurn, Lookup.record]

/-- The correction at the end of a style sheet is that of its lookup. -/
theorem corrections_root (r : Relocation) (root : Root) :
    (r.root root).corrections = (root.lookups r.lines.size).foldl (Lookup.record r) ∅ := by
  rw [Root.lookups, foldl_ofRaw]
  rfl

mutual

/-- The nodes below a node are moved one by one. -/
theorem preorder_node (r : Relocation) (n : Node) :
    (r.node n).preorder = n.preorder.map r.node := by
  cases n with
  | rule h ns | atRule h ns => simp [node, Node.preorder, preorderAll_nodes]
  | atStatement h | declaration d | comment c => rfl

/-- Nodes and those below them are moved one by one. -/
theorem preorderAll_nodes (r : Relocation) (ns : List Node) :
    Node.preorderAll (r.nodes ns) = (Node.preorderAll ns).map r.node := by
  cases ns with
  | nil => rfl
  | cons n ns => simp [nodes, Node.preorderAll, preorder_node, preorderAll_nodes]

end

end Relocation

namespace Sheet

open Relocation (Ownership sizeOf?)
open Token (texts)

/-! ### Places of texts -/

/-- A lookup **stands** in a text if that text has its own where it is taken to stand. -/
def Lookup.Stands (s : Text) (l : Lookup) : Prop :=
  Text.StandsAt s l.start l.text

/-- Texts that follow one another stand where they are looked up. -/
theorem Lookup.stands_of_mem_inTurn {s p q : Text} {ts : List (RawKey × Text)}
    (h : s = p ++ ts.flatMap Prod.snd ++ q) :
    ∀ l ∈ Lookup.inTurn (Text.byteSize p) ts, l.Stands s := by
  induction ts generalizing p with
  | nil => simp [inTurn]
  | cons kt ts ih =>
      obtain ⟨key, t⟩ := kt
      rw [List.flatMap_cons] at h
      refine List.forall_mem_cons.2 ⟨?_, ?_⟩
      · have := Text.standsAt_append p t (ts.flatMap Prod.snd ++ q)
        simpa [Stands, h] using this
      · rw [← Text.byteSize_append]
        exact ih (by simp [h])

/-- The head of a block as a node. -/
def Head.node : Head → Node
  | .rule h => .rule h []
  | .atRule h => .atRule h []

/-- What a statement says, as a node. -/
def Statement.node : Statement → Node
  | .whole n _ => n
  | .opening head _ _ => head.node

/-- A statement begins with the mark and the texts of its node. -/
theorem Reads.exists_texts_eq {lines : LineMap} {before : Text} {ts : List Token} {r : Read}
    (h : Reads lines before ts r) :
    r.statement.node.before? = some before ∧ r.statement.node.closing? = none ∧
      ∃ x, texts ts =
        r.statement.node.mark ++ r.statement.node.innerTexts.flatMap Prod.snd ++ x := by
  cases h with
  | @comment _ ts _ hk ht =>
      exact ⟨rfl, rfl, ['*', '/'] ++ texts ts, by
        simp [ht, Statement.node, Node.mark, Node.innerTexts]⟩
  | @inlineComment _ ts _ hk ht hn =>
      exact ⟨rfl, rfl, texts ts, by simp [ht, Statement.node, Node.mark, Node.innerTexts]⟩
  | @atRule _ u _ _ _ _ rest _ ht hn hts hu | @atStatement _ u _ _ _ _ rest _ ht hn hts hu =>
      exact ⟨rfl, rfl, texts (u :: rest), by
        simp [ht, hts, Statement.node, Head.node, Node.mark, Node.innerTexts, RawKey.texts]⟩
  | @openAtStatement _ _ _ _ back rest _ _ ht hn hts _ _ _ _ =>
      exact ⟨rfl, rfl, texts (back ++ rest), by
        simp [ht, hts, Statement.node, Node.mark, Node.innerTexts, RawKey.texts]⟩
  | @rule _ u _ _ _ rest hts hu | @mixin _ u _ _ _ rest hts hu
  | @declaration _ u _ _ _ _ _ rest hts hu =>
      exact ⟨rfl, rfl, texts (u :: rest), by
        rw [hts]
        simp [Statement.node, Head.node, Node.mark, Node.innerTexts, RawKey.texts]⟩
  | @openDeclaration _ _ _ _ _ back rest _ hts _ _ _ _ =>
      exact ⟨rfl, rfl, texts (back ++ rest), by
        rw [hts]
        simp [Statement.node, Node.mark, Node.innerTexts, RawKey.texts]⟩

/-- **The texts of a statement stand where they are looked up**, and what is in front of it does. -/
theorem Reads.stands {lines : LineMap} {s p before : Text} {ts : List Token} {r : Read}
    (h : Reads lines before ts r) (hs : s = p ++ before ++ texts ts) :
    ∀ l ∈ r.statement.node.headLookups (Text.byteSize (p ++ before)), l.Stands s := by
  obtain ⟨hbefore, -, x, hx⟩ := h.exists_texts_eq
  rw [hx] at hs
  refine List.forall_mem_append.2 ⟨?_, ?_⟩
  · rw [hbefore]
    have := Text.standsAt_append p before
      (r.statement.node.mark ++ r.statement.node.innerTexts.flatMap Prod.snd ++ x)
    simpa [Lookup.ofRaw, Lookup.Stands, hs] using this
  · rw [← Text.byteSize_append]
    exact Lookup.stands_of_mem_inTurn (q := x) (by simp [hs])

/-! ### Steps of the parser -/

/-- A node is **located** in a text if it knows its range and its texts stand where they are looked
up. -/
def Node.Located (s : Text) (n : Node) : Prop :=
  (∃ a, n.source? = some a) ∧ ∀ l ∈ n.lookups, l.Stands s

/-- The nodes below others are those below each of them. -/
theorem Node.preorderAll_eq_flatMap (ns : List Node) : preorderAll ns = ns.flatMap preorder := by
  induction ns with
  | nil => rfl
  | cons n ns ih => rw [preorderAll, ih, List.flatMap_cons]

/-- A node and the nodes in its block, with those below them. -/
theorem Node.preorder_eq (n : Node) : n.preorder = n :: preorderAll n.children := by
  cases n <;> rfl

/-- The **invariant of places**: the tokens `done` have been read, the tokens `pend` wait in front
of the next node, and all nodes that have been read are located, the heads of open blocks as far
as they have been read. -/
structure Parse.Located (s : Text) (p : Parse) (done pend rest : List Token) : Prop where
  text_eq : s = texts done ++ texts pend ++ texts rest
  pending : p.body.pending = texts pend
  body : ∀ n ∈ Node.preorderAll p.body.nodes, n.Located s
  around : ∀ b ∈ p.blocks, (∀ l ∈ b.head.node.headLookups b.start, l.Stands s) ∧
    ∀ n ∈ Node.preorderAll b.siblings, n.Located s

namespace Parse.Located

variable {s : Text} {p : Parse} {g : Grammar} {t : Token} {ts all done pend rest : List Token}

/-- The invariant holds in front of the first token. -/
theorem init (h : texts all = s) : Parse.Located s {} [] [] all where
  text_eq := by simp [h]
  pending := rfl
  body := by simp [Node.preorderAll]
  around := by simp

/-- A blank or a stray semicolon waits for what comes behind it. -/
theorem wait (h : Parse.Located s p done pend (t :: ts)) :
    Parse.Located s { p with body := { p.body with pending := p.body.pending ++ t.text } } done
      (pend ++ [t]) ts where
  text_eq := by simp [h.text_eq]
  pending := by simp [h.pending]
  body := h.body
  around := h.around

/-- A block is closed. -/
theorem close (h : Parse.Located s p done pend (t :: ts)) {b : OpenBlock} {bs : List OpenBlock}
    (hp : p.blocks = b :: bs) (ht : t.text = ['}'])
    (hstart : t.start = Text.byteSize (texts (done ++ pend))) (lines : LineMap) :
    Parse.Located s (Parse.push (b.close lines p.body t.stop) false
      { body := { nodes := b.siblings }, blocks := bs }) (done ++ pend ++ [t]) [] ts where
  text_eq := by simp [h.text_eq]
  pending := rfl
  body := by
    obtain ⟨hhead, hsiblings⟩ := h.around b (by simp [hp])
    have hsource := b.source?_close lines p.body t.stop
    refine List.forall_mem_append.2 ⟨?_, hsiblings⟩
    rw [Node.preorder_eq, b.children_close]
    refine List.forall_mem_cons.2 ⟨⟨⟨_, hsource⟩, ?_⟩, fun n hn => h.body n ?_⟩
    · -- The after is the text that waits in front of the brace.
      have hlookups : (b.close lines p.body t.stop).lookups = b.head.node.headLookups b.start ++
          [⟨.after, p.body.pending, t.stop - (1 + Text.byteSize p.body.pending), .inner⟩] := by
        rw [Node.lookups, hsource]
        obtain ⟨head, start, brace, siblings⟩ := b
        cases head <;> rfl
      have hstop : t.stop - (1 + Text.byteSize (texts pend)) = Text.byteSize (texts done) := by
        simp [Token.stop, ht, hstart]
        omega
      rw [hlookups]
      refine List.forall_mem_append.2 ⟨hhead, List.forall_mem_singleton.2 ?_⟩
      rw [Lookup.Stands, h.pending, hstop, h.text_eq]
      exact Text.standsAt_append _ _ _
    · simpa [Node.preorderAll_eq_flatMap] using hn
  around c hc := h.around c (by rw [hp]; exact List.mem_cons_of_mem b hc)

/-- A statement is read. -/
theorem accept (h : Parse.Located s p done pend (t :: ts))
    (hstart : t.start = Text.byteSize (texts (done ++ pend))) {lines : LineMap} {r : Read}
    (hr : Reads lines (texts pend) (t :: ts) r) :
    ∃ used, t :: ts = used ++ r.rest ∧
      Parse.Located s (p.accept r.statement) (done ++ (pend ++ used)) [] r.rest := by
  have hstands := hr.stands h.text_eq
  rw [← Token.texts_append, ← hstart] at hstands
  obtain ⟨us, u, hus, hplace, -⟩ := hr.exists_last
  obtain ⟨-, hclosing, -⟩ := hr.exists_texts_eq
  have htext : s = texts (done ++ (pend ++ (us ++ [u]))) ++ texts [] ++ texts r.rest := by
    rw [h.text_eq, hus]
    simp
  refine ⟨us ++ [u], by simpa using hus, ?_⟩
  obtain ⟨statement, rest⟩ := r
  cases statement with
  | whole n terminated =>
      obtain ⟨hsource, hchildren⟩ := hplace
      have hlookups : n.lookups = n.headLookups t.start := by
        have hclosing : n.closing? = none := hclosing
        simp [Node.lookups, hsource, hclosing, Lookup.ofRaw]
      refine ⟨htext, rfl, ?_, h.around⟩
      refine List.forall_mem_append.2 ⟨?_, h.body⟩
      rw [Node.preorder_eq, hchildren]
      exact List.forall_mem_singleton.2 ⟨⟨_, hsource⟩, hlookups ▸ hstands⟩
  | opening head start brace =>
      obtain rfl : start = t.start := hplace
      refine ⟨htext, rfl, by simp [Parse.accept, Node.preorderAll], ?_⟩
      exact List.forall_mem_cons.2 ⟨⟨hstands, h.body⟩, h.around⟩

/-- **A step of the parser leaves all texts where they are looked up.** -/
theorem step (hform : ∀ k ∈ all, k.HasForm) (htiled : Token.Tiled 0 all)
    (h : Parse.Located s p done pend (t :: ts)) (hall : done ++ pend ++ t :: ts = all)
    {lines : LineMap} {q : Parse × List Token} (hq : p.step g lines t ts = .ok q) :
    ∃ done' pend', done' ++ pend' ++ q.2 = all ∧ Parse.Located s q.1 done' pend' q.2 := by
  have hstart : t.start = Text.byteSize (texts (done ++ pend)) := by
    rw [← hall, Token.tiled_append] at htiled
    simpa using htiled.2.1
  have ht := hform t (by simp [← hall])
  rw [Parse.step] at hq
  split at hq
  · cases hq
    exact ⟨done, pend ++ [t], by simp [← hall], h.wait⟩
  · cases hq
    exact ⟨done, pend ++ [t], by simp [← hall], h.wait⟩
  · next hk =>
      split at hq
      · contradiction
      · next b bs hp =>
          cases hq
          exact ⟨_, [], by simp [← hall], h.close hp (ht.text_closeCurly hk) hstart lines⟩
  · cases hr : readStatement g lines p.body.pending t ts with
    | error e => simp [hr, Except.map] at hq
    | ok r =>
        simp only [hr, Except.map, Except.ok.injEq] at hq
        subst hq
        rw [h.pending] at hr
        obtain ⟨used, hused, hlocated⟩ := h.accept hstart (reads_of_readStatement ht hr)
        exact ⟨_, [], by simp [← hall, hused], hlocated⟩

/-- What has been read when no tokens are left is located. -/
theorem run (hform : ∀ k ∈ all, k.HasForm) (htiled : Token.Tiled 0 all) {p : Parse}
    {done pend rest : List Token} (h : Parse.Located s p done pend rest)
    (hall : done ++ pend ++ rest = all) {lines : LineMap} {body : Body}
    (hrun : p.run g lines rest = .ok body) :
    ∃ done' pend', Parse.Located s { body := body } done' pend' [] := by
  match rest with
  | [] =>
      rw [Parse.run] at hrun
      split at hrun
      · cases hrun
        exact ⟨done, pend, h.text_eq, h.pending, h.body, by simp⟩
      · contradiction
  | t :: ts =>
      rw [Parse.run_cons] at hrun
      cases hq : p.step g lines t ts with
      | error e => simp [hq, Except.bind] at hrun
      | ok q =>
          simp only [hq, Except.bind] at hrun
          obtain ⟨done', pend', hall', h'⟩ := h.step hform htiled hall hq
          have := Parse.length_snd_step_le hq
          exact Located.run hform htiled h' hall' hrun
termination_by rest.length

end Parse.Located

/-! ### Parsed style sheets -/

/-- **Lookups serve** some texts of a style sheet: they are what the corrections record, each of the
texts is looked up by its name, and each lookup finds its text in the style text. -/
structure Lookup.Serve (s : Text) (r : Relocation) (text? : RawKey → Option Text) (ls : List Lookup)
    (cs : Corrections) : Prop where
  /-- The corrections are those of the lookups. -/
  records : cs = ls.foldl (Lookup.record r) ∅
  /-- Every text is looked up. -/
  covers : ∀ key t, text? key = some t → ∃ l ∈ ls, l.key = key ∧ l.text = t
  /-- Every text stands where it is looked up. -/
  stands : ∀ l ∈ ls, Text.slice? l.start (l.start + Text.byteSize l.text) s = some l.text

/-- A raw that is there is looked up. -/
theorem Lookup.exists_mem_ofRaw (key : RawKey) {raw : Option Text} {t : Text} (h : raw = some t)
    (start : Nat) (o : Ownership) : ∃ l ∈ ofRaw key raw start o, l.key = key ∧ l.text = t :=
  ⟨⟨key, t, start, o⟩, by simp [ofRaw, h], rfl, rfl⟩

/-- Each of the texts that follow one another is looked up. -/
theorem Lookup.exists_mem_inTurn {ts : List (RawKey × Text)} {key : RawKey} {t : Text}
    (h : (key, t) ∈ ts) (start : Nat) : ∃ l ∈ inTurn start ts, l.key = key ∧ l.text = t := by
  induction ts generalizing start with
  | nil => contradiction
  | cons kt ts ih =>
      rcases List.mem_cons.1 h with rfl | h
      · exact ⟨_, List.mem_cons_self, rfl, rfl⟩
      · obtain ⟨l, hl, hkey, htext⟩ := ih h (start + Text.byteSize kt.2)
        exact ⟨l, List.mem_cons_of_mem _ hl, hkey, htext⟩

/-- A text that is printed stands in front of its node, behind the mark or at the end of the
block. -/
theorem Node.text_of_slot? {n : Node} {key : RawKey} {slot : Slot} (h : n.slot? key = some slot) :
    (key = .before ∧ n.before? = some slot.text) ∨ (key, slot.text) ∈ n.innerTexts ∨
      (key = .after ∧ n.closing? = some slot.text) := by
  cases n with
  | rule head ns | atRule head ns | atStatement head | declaration d | comment c =>
      cases key <;>
        grind [slot?, before?, innerTexts, closing?, RawKey.texts, Option.map_eq_some_iff]

/-- A text that is printed is looked up. -/
theorem Node.exists_lookup_of_slot? {n : Node} {a : Range} (hn : n.source? = some a) {key : RawKey}
    {slot : Slot} (h : n.slot? key = some slot) :
    ∃ l ∈ n.lookups, l.key = key ∧ l.text = slot.text := by
  rw [lookups, hn]
  rcases text_of_slot? h with ⟨rfl, ht⟩ | ht | ⟨rfl, ht⟩
  · obtain ⟨l, hl, hkey⟩ := Lookup.exists_mem_ofRaw .before ht
      (a.span.start - sizeOf? n.before?) .lineStart
    exact ⟨l, by simp [headLookups, hl], hkey⟩
  · obtain ⟨l, hl, hkey⟩ := Lookup.exists_mem_inTurn ht (a.span.start + Text.byteSize n.mark)
    exact ⟨l, by simp [headLookups, hl], hkey⟩
  · obtain ⟨l, hl, hkey⟩ := Lookup.exists_mem_ofRaw .after ht
      (a.span.stop - (1 + sizeOf? n.closing?)) .inner
    exact ⟨l, by simp [hl], hkey⟩

/-- **Every text of a parsed style sheet stands where it is looked up**: what stands in front of a
node, the selector, property, name, parameters, value or comment text and what stands between and
behind these, what stands at the end of a block, and what stands at the end of the style sheet. -/
theorem lookups_of_parse {g : Grammar} {s : Text} {root : Root} {r : Relocation}
    (h : parse g s = .ok root) (hr : r.lines = LineMap.ofText s) :
    ((r.root root).descendants = root.descendants.map r.node ∧
      ∀ n ∈ root.descendants, Lookup.Serve s r (fun key => (n.slot? key).map Slot.text) n.lookups
        (r.node n).corrections) ∧
      Lookup.Serve s r (fun key => if key = .after then root.after else none)
        (root.lookups (Text.byteSize s)) (r.root root).corrections := by
  obtain ⟨tokens, body, htokens, hrun, hnodes, hafter, -⟩ := run_of_parse h
  obtain ⟨done, pend, hlocated⟩ := (Parse.Located.init (Token.texts_of_tokenize htokens)).run
    (fun k hk => Token.hasForm_of_mem htokens hk) (Token.tiled_of_tokenize htokens) (by simp) hrun
  have hsize : r.lines.size = Text.byteSize s := by rw [hr]; rfl
  refine ⟨⟨r.preorderAll_nodes root.nodes, fun n hn => ?_⟩, ?_, ?_, ?_⟩
  · rw [Root.descendants, hnodes] at hn
    obtain ⟨⟨a, ha⟩, hstands⟩ := hlocated.body n (by simpa [Node.preorderAll_eq_flatMap] using hn)
    refine ⟨r.corrections_node ha, fun key t ht => ?_, hstands⟩
    obtain ⟨slot, hslot, rfl⟩ := Option.map_eq_some_iff.1 ht
    exact Node.exists_lookup_of_slot? ha hslot
  · rw [← hsize]
    exact r.corrections_root root
  · intro key t ht
    split at ht
    · next hkey =>
        simp [Root.lookups, Lookup.ofRaw, ht, hkey]
    · contradiction
  · have htext := hlocated.text_eq
    have hplace : Text.byteSize s - Text.byteSize (texts pend) = Text.byteSize (texts done) := by
      simp [htext]
    have hstands := Text.standsAt_append (texts done) (texts pend) (texts [])
    rw [← htext, ← hplace] at hstands
    rw [Root.lookups, hafter, hlocated.pending]
    exact List.forall_mem_singleton.2 hstands

/-- An at-rule with a declaration that no semicolon ends, and a comment. -/
theorem lookups_of_parse_atRule :
    let s : Text := "@a b \x7bc: d \x7d\n/*e*/\n".toList
    let r : Relocation := ⟨{}, LineMap.ofText s, 0, ⟨1, 1⟩, []⟩
    ∃ root, parse {} s = .ok root ∧
      root.descendants.map (fun n => n.lookups.map fun l => (l.start, String.ofList l.text)) =
        [[(0, ""), (2, " "), (3, "b"), (4, " "), (10, " ")],
          [(6, ""), (6, "c"), (7, ": "), (9, "d"), (10, "")], [(12, "\n"), (15, "e")]] ∧
      (∀ n ∈ root.descendants, Lookup.Serve s r (fun key => (n.slot? key).map Slot.text) n.lookups
        (r.node n).corrections) ∧
      Lookup.Serve s r (fun key => if key = .after then root.after else none)
        (root.lookups (Text.byteSize s)) (r.root root).corrections := by
  intro s r
  have hrun : (parse {} s).toOption.map (fun root =>
      root.descendants.map fun n => n.lookups.map fun l => (l.start, String.ofList l.text)) =
      some [[(0, ""), (2, " "), (3, "b"), (4, " "), (10, " ")],
        [(6, ""), (6, "c"), (7, ": "), (9, "d"), (10, "")], [(12, "\n"), (15, "e")]] := by
    decide +kernel
  obtain ⟨root, hroot, hlookups⟩ := Option.map_eq_some_iff.1 hrun
  have hparse : parse {} s = .ok root := by
    cases h : parse {} s with
    | error e => simp [h, Except.toOption] at hroot
    | ok root' => simpa [h, Except.toOption] using hroot
  obtain ⟨⟨-, hnodes⟩, hafter⟩ := lookups_of_parse (r := r) hparse rfl
  exact ⟨root, hparse, hlookups, hnodes, hafter⟩

end Sheet

end StyleBlocks
