import StyleBlocks.Proofs.Sheet.ParseSpelling

/-!
# Where nodes stand in their style sheet

The parser gives every node the range from its first token to its last. These ranges nest as the nodes
do: a block starts with its head and ends with its closing brace, its nodes are read between the two,
and what is read next starts where the node before has ended. The ends of a range are not just
anywhere between tokens. They are **seams**: a blank, a brace, a semicolon or the slash of a comment
stands in front of them, or a blank or a closing brace behind them.

## Main results

* `Reads.exists_last`: where a statement ends.
* `Parse.Nests.step`: a step of the parser leaves the nodes nested.
* `nest_of_parse`: the nodes of a style sheet nest, and their ranges end at seams.
-/

namespace StyleBlocks.Sheet

open Token (texts)

/-- Nodes **nest** between two offsets: their ranges satisfy `P`, stand in order and do not overlap,
and their own nodes nest within them. -/
inductive Nest (P : Range → Prop) : Nat → Nat → List Node → Prop
  | nil {lo hi : Nat} (h : lo ≤ hi) : Nest P lo hi []
  | cons {lo hi : Nat} {n : Node} {ns : List Node} {a : Range} (hsource : n.source? = some a)
      (ha : P a) (hlo : lo ≤ a.span.start) (hin : Nest P a.span.start a.span.stop n.children)
      (hrest : Nest P a.span.stop hi ns) : Nest P lo hi (n :: ns)

namespace Nest

variable {P : Range → Prop} {lo mid hi hi' : Nat} {n : Node} {ns : List Node} {a : Range}

/-- Nodes that nest take no less than no room. -/
theorem le (h : Nest P lo hi ns) : lo ≤ hi := by
  induction h with
  | nil h => exact h
  | cons _ _ hlo _ _ hin hrest => omega

/-- Nodes that nest between two offsets do so up to any later one. -/
theorem mono (h : Nest P lo hi ns) (hle : hi ≤ hi') : Nest P lo hi' ns := by
  induction h with
  | nil h => exact .nil (h.trans hle)
  | cons hsource ha hlo hin _ _ hrest => exact .cons hsource ha hlo hin (hrest hle)

/-- One more node behind nodes that nest. -/
theorem concat (h : Nest P lo mid ns) (hsource : n.source? = some a) (ha : P a)
    (hmid : mid ≤ a.span.start) (hin : Nest P a.span.start a.span.stop n.children) :
    Nest P lo a.span.stop (ns ++ [n]) := by
  induction h with
  | nil h => exact .cons hsource ha (h.trans hmid) hin (.nil le_rfl)
  | cons hs hP hlo hin' _ _ hrest => exact .cons hs hP hlo hin' (hrest hmid)

/-- What holds of all ranges within the offsets of nodes that nest may be added to what is known of
their ranges. -/
theorem imp {P Q : Range → Prop} {lo' : Nat}
    (h : Nest P lo hi ns) (hlo : lo' ≤ lo) (hhi : hi ≤ hi')
    (hQ : ∀ a, P a → lo' ≤ a.span.start → a.span.stop ≤ hi' → Q a) : Nest Q lo hi ns := by
  induction h with
  | nil h => exact .nil h
  | cons hsource ha hstart hin hrest ihin ihrest =>
      have := hin.le
      have := hrest.le
      exact .cons hsource (hQ _ ha (by omega) (by omega)) hstart (ihin (by omega) (by omega))
        (ihrest (by omega) hhi)

end Nest

mutual

/-- Every node below a node that nests has a range within the node's. -/
theorem Node.forall_mem_preorder {P : Range → Prop} {a : Range} (n : Node)
    (hsource : n.source? = some a) (ha : P a) (hin : Nest P a.span.start a.span.stop n.children) :
    ∀ m ∈ n.preorder, ∃ b, m.source? = some b ∧ P b ∧
      a.span.start ≤ b.span.start ∧ b.span.start ≤ b.span.stop ∧ b.span.stop ≤ a.span.stop := by
  intro m hm
  have hself : ∃ b, n.source? = some b ∧ P b ∧
      a.span.start ≤ b.span.start ∧ b.span.start ≤ b.span.stop ∧ b.span.stop ≤ a.span.stop :=
    ⟨a, hsource, ha, le_rfl, hin.le, le_rfl⟩
  match n with
  | .rule h ns | .atRule h ns =>
      rw [Node.preorder] at hm
      rcases List.mem_cons.1 hm with rfl | hm
      · exact hself
      · exact forall_mem_preorderAll ns hin m hm
  | .atStatement h | .declaration d | .comment c =>
      rw [Node.preorder] at hm
      rw [List.mem_singleton.1 hm]
      exact hself

/-- Nodes that nest, and the nodes below them, have ranges between the offsets. -/
theorem Node.forall_mem_preorderAll {P : Range → Prop} {lo hi : Nat} (ns : List Node)
    (h : Nest P lo hi ns) :
    ∀ m ∈ Node.preorderAll ns, ∃ b, m.source? = some b ∧ P b ∧
      lo ≤ b.span.start ∧ b.span.start ≤ b.span.stop ∧ b.span.stop ≤ hi := by
  intro m hm
  match ns with
  | [] => simp [Node.preorderAll] at hm
  | n :: ns =>
      cases h with
      | cons hsource ha hlo hin hrest =>
          rw [Node.preorderAll] at hm
          have hle := hrest.le
          have hself := hin.le
          rcases List.mem_append.1 hm with hm | hm
          · obtain ⟨b, hb, hP, hstart, hmid, hstop⟩ := n.forall_mem_preorder hsource ha hin m hm
            exact ⟨b, hb, hP, by omega, hmid, by omega⟩
          · obtain ⟨b, hb, hP, hstart, hmid, hstop⟩ := forall_mem_preorderAll ns hrest m hm
            exact ⟨b, hb, hP, by omega, hmid, hstop⟩

end

/-! ### Seams -/

/-- The cut between two texts is a **seam** if one of them is empty, the first ends in a blank, a
semicolon, a brace or a slash, or the second starts with a blank or a closing brace. -/
def IsSeam (p s : Text) : Prop :=
  p = [] ∨ s = [] ∨
    (∃ c, p.getLast? = some c ∧ (Token.isStyleBlank c = true ∨ c ∈ [';', '{', '}', '/'])) ∨
    ∃ c, s.head? = some c ∧ (Token.isStyleBlank c = true ∨ c = '}')

/-- A text has a seam at an offset. -/
def HasSeam (t : Text) (o : Nat) : Prop :=
  ∃ p s, t = p ++ s ∧ o = Text.byteSize p ∧ IsSeam p s

/-- A range of a text goes from seam to seam. -/
structure FromSeamToSeam (t : Text) (a : Range) : Prop where
  eq : a = (LineMap.ofText t).range a.span
  le : a.span.start ≤ a.span.stop
  start : HasSeam t a.span.start
  stop : HasSeam t a.span.stop

variable {all done us rest ts : List Token} {t u : Token}

/-- A token that ends in one of the characters of seams. -/
theorem isSeam_append {c : Char} {x : Text} (hu : u.text = x ++ [c]) (s : Text)
    (hc : Token.isStyleBlank c = true ∨ c ∈ [';', '{', '}', '/']) :
    IsSeam (texts (us ++ [u])) s :=
  Or.inr (Or.inr (Or.inl ⟨c, by simp [hu, List.getLast?_append], hc⟩))

/-- In front of the end of a block there is a seam. -/
theorem isSeam_of_atBlockEnd (p : Text) (hform : ∀ k ∈ rest, k.HasForm) (h : AtBlockEnd rest) :
    IsSeam p (texts rest) := by
  match rest, h with
  | [], _ => exact Or.inr (Or.inl rfl)
  | k :: rest, h =>
      have hk := hform k List.mem_cons_self
      refine Or.inr (Or.inr (Or.inr ?_))
      rcases h with hkind | ⟨hkind, -⟩
      · exact ⟨'}', by simp [hk.text_closeCurly hkind], Or.inr rfl⟩
      · rw [Token.HasForm, hkind] at hk
        obtain ⟨hne, hblank⟩ := hk
        obtain ⟨c, x, hc⟩ := List.exists_cons_of_ne_nil hne
        exact ⟨c, by simp [hc], Or.inl (hblank c (by simp [hc]))⟩

/-- A comment up to the end of its line has that end behind it. -/
def EndsLines (all : List Token) : Prop :=
  ∀ us k rest, all = us ++ k :: rest → k.kind = .lineComment →
    texts rest = [] ∨ (texts rest).head? = some '\n'

/-- In the tokens of a text, comments up to the end of their line have that end behind them. -/
theorem Token.endsLines_of_tokenizeFrom {lines : LineMap} {offset : Nat} {s : Text}
    (h : Token.tokenizeFrom lines offset s = .ok ts) : EndsLines ts := by
  rintro us k rest rfl hk
  obtain ⟨v, -, -, -, hv⟩ := Token.tokenizeFrom_eq_ok_append.1 h
  obtain ⟨w, -, -, hstops, -, hw⟩ := Token.tokenizeFrom_eq_ok_cons.1 hv
  rw [Token.texts_of_tokenizeFrom hw]
  cases w with
  | nil => exact Or.inl rfl
  | cons c w =>
      have hc : Token.Ends k.kind k.text c := hstops c rfl
      rw [hk] at hc
      exact Or.inr (congrArg some hc)

/-! ### Where statements end -/

/-- The node or head of a statement **stands** at a span; of a head, only the start tells. -/
def Statement.Stands (lines : LineMap) (s : Span) : Statement → Prop
  | .whole n _ => n.source? = some (lines.range s) ∧ n.children = []
  | .opening _ start _ => start = s.start

/-- **Where a statement ends**: with its last token, which is a semicolon, a brace or a comment, or
behind which there is nothing left of the block. -/
theorem Reads.exists_last {lines : LineMap} {before : Text} {r : Read}
    (h : Reads lines before (t :: ts) r) :
    ∃ us u, t :: ts = us ++ u :: r.rest ∧ r.statement.Stands lines ⟨t.start, u.stop⟩ ∧
      (u.kind ∈ [.semicolon, .openCurly, .comment, .lineComment] ∨ AtBlockEnd r.rest) := by
  have hsplit : ∀ (ls : List Token) {ks : List Token} {stop : Nat},
      ks.getLast?.map Token.stop = some stop →
      ∃ us u, ks ++ ls = us ++ u :: ls ∧ u.stop = stop := by
    intro ls ks stop hstop
    obtain ⟨u, hu, hstop⟩ := Option.map_eq_some_iff.1 hstop
    obtain ⟨us, rfl⟩ := List.getLast?_eq_some_iff.1 hu
    exact ⟨us, u, by simp, by simpa using hstop⟩
  cases h with
  | comment hk ht => exact ⟨[], t, rfl, ⟨rfl, rfl⟩, Or.inl (by simp [hk])⟩
  | inlineComment hk ht hn => exact ⟨[], t, rfl, ⟨rfl, rfl⟩, Or.inl (by simp [hk])⟩
  | @atRule t u _ front core back _ _ ht hn hts hu =>
      exact ⟨t :: (front ++ core ++ back), u, by simp [hts], rfl, Or.inl (by simp [hu])⟩
  | @atStatement t u _ front core back _ _ ht hn hts hu =>
      exact ⟨t :: (front ++ core ++ back), u, by simp [hts], ⟨rfl, rfl⟩, Or.inl (by simp [hu])⟩
  | @openAtStatement t _ front core back rest _ stop ht hn hts hlast hstop hback hrest =>
      obtain ⟨us, u, hus, rfl⟩ := hsplit (back ++ rest) hstop
      exact ⟨us, u, by rw [← hus, hts]; simp, ⟨rfl, rfl⟩, Or.inr (hrest.append hback)⟩
  | @rule t u _ core back _ hts hu =>
      exact ⟨core ++ back, u, hts, rfl, Or.inl (by simp [hu])⟩
  | @mixin t u _ core back _ hts hu =>
      exact ⟨core ++ back, u, hts, ⟨rfl, rfl⟩, Or.inl (by simp [hu])⟩
  | @declaration t u _ prop gap value after _ hts hu =>
      exact ⟨prop ++ gap ++ value ++ after, u, hts, ⟨rfl, rfl⟩, Or.inl (by simp [hu])⟩
  | @openDeclaration t _ prop gap value back rest stop hts hlast hstop hback hrest =>
      obtain ⟨us, u, hus, rfl⟩ := hsplit (back ++ rest) hstop
      exact ⟨us, u, by rw [← hus, hts]; simp, ⟨rfl, rfl⟩, Or.inr (hrest.append hback)⟩

/-- Behind a statement there is a seam. -/
theorem isSeam_of_last (hform : ∀ k ∈ us ++ u :: rest, k.HasForm)
    (hlines : EndsLines (us ++ u :: rest))
    (h : u.kind ∈ [.semicolon, .openCurly, .comment, .lineComment] ∨ AtBlockEnd rest) :
    IsSeam (texts (us ++ [u])) (texts rest) := by
  have hu := hform u (by simp)
  rcases h with h | h
  · rw [Token.HasForm] at hu
    simp only [List.mem_cons, List.not_mem_nil, or_false] at h
    rcases h with hk | hk | hk | hk
    · rw [hk] at hu
      exact isSeam_append (x := []) hu _ (by simp)
    · rw [hk] at hu
      exact isSeam_append (x := []) hu _ (by simp)
    · rw [hk] at hu
      obtain ⟨inner, hu⟩ := hu
      exact isSeam_append (c := '/') (x := '/' :: '*' :: (inner ++ ['*'])) (by simp [hu]) _
        (by simp)
    · rcases hlines us u rest rfl hk with hnil | hhead
      · exact Or.inr (Or.inl hnil)
      · exact Or.inr (Or.inr (Or.inr ⟨'\n', hhead, Or.inl rfl⟩))
  · exact isSeam_of_atBlockEnd _ (fun k hk => hform k (by simp [hk])) h

/-! ### Steps -/

/-- A block that is closed goes from its start to its end. -/
theorem OpenBlock.source?_close (b : OpenBlock) (lines : LineMap) (body : Body) (stop : Nat) :
    (b.close lines body stop).source? = some (lines.range ⟨b.start, stop⟩) := by
  cases b with
  | mk head => cases head <;> rfl

/-- A block that is closed has the nodes that were read in it as its own. -/
theorem OpenBlock.children_close (b : OpenBlock) (lines : LineMap) (body : Body) (stop : Nat) :
    (b.close lines body stop).children = body.nodes.reverse := by
  cases b with
  | mk head => cases head <;> rfl

/-- Where the innermost of some open blocks starts, or the style sheet if there is none. -/
def floorOf : List OpenBlock → Nat
  | [] => 0
  | b :: _ => b.start

/-- Open blocks start at seams, each with the nodes in front of it nesting in what is around it. -/
def AroundNests (P : Range → Prop) (s : Text) : List OpenBlock → Prop
  | [] => True
  | b :: bs => HasSeam s b.start ∧ Nest P (floorOf bs) b.start b.siblings.reverse ∧ AroundNests P s bs

/-- The **invariant of node ranges**: the tokens `done` have been read and end at a seam, the nodes
read of the innermost block nest between its start and there, and so do those around it. -/
structure Parse.Nests (s : Text) (p : Parse) (done rest : List Token) : Prop where
  text_eq : s = texts done ++ texts rest
  seam : IsSeam (texts done) (texts rest)
  body : Nest (FromSeamToSeam s) (floorOf p.blocks) (Text.byteSize (texts done))
    p.body.nodes.reverse
  around : AroundNests (FromSeamToSeam s) s p.blocks

namespace Parse.Nests

variable {s : Text} {p : Parse} {g : Grammar}

/-- The invariant holds in front of the first token. -/
theorem init (h : texts all = s) : Parse.Nests s {} [] all where
  text_eq := by simp [h]
  seam := Or.inl rfl
  body := .nil le_rfl
  around := trivial

/-- What has been read ends at a seam. -/
theorem hasSeam (h : Parse.Nests s p done rest) : HasSeam s (Text.byteSize (texts done)) :=
  ⟨texts done, texts rest, h.text_eq, rfl, h.seam⟩

/-- A range between two places that the parser comes to. -/
theorem fromSeamToSeam {b e : Nat} (hle : b ≤ e) (hb : HasSeam s b) (he : HasSeam s e) :
    FromSeamToSeam s ((LineMap.ofText s).range ⟨b, e⟩) :=
  ⟨rfl, hle, hb, he⟩

/-- A token is read that ends at a seam and belongs to no node. -/
theorem wait (h : Parse.Nests s p done (t :: rest)) {q : Parse} (hblocks : q.blocks = p.blocks)
    (hnodes : q.body.nodes = p.body.nodes) (hseam : IsSeam (texts (done ++ [t])) (texts rest)) :
    Parse.Nests s q (done ++ [t]) rest where
  text_eq := by rw [h.text_eq]; simp
  seam := hseam
  body := by
    rw [hblocks, hnodes]
    exact h.body.mono (by simp)
  around := hblocks ▸ h.around

/-- A node is read behind the nodes of the innermost block. -/
theorem push (h : Parse.Nests s p done (us ++ rest)) {n : Node} (terminated : Bool)
    (hsource : n.source? = some ((LineMap.ofText s).range
      ⟨Text.byteSize (texts done), Text.byteSize (texts (done ++ us))⟩))
    (hchildren : n.children = []) (hseam : IsSeam (texts (done ++ us)) (texts rest)) :
    Parse.Nests s (p.push n terminated) (done ++ us) rest := by
  have htext : s = texts (done ++ us) ++ texts rest := by rw [h.text_eq]; simp
  refine ⟨htext, hseam, ?_, h.around⟩
  have hle : Text.byteSize (texts done) ≤ Text.byteSize (texts (done ++ us)) := by simp
  have hnest := h.body.concat hsource (fromSeamToSeam hle h.hasSeam ⟨_, _, htext, rfl, hseam⟩)
    le_rfl (by rw [hchildren]; exact .nil hle)
  simpa [Parse.push] using hnest

/-- The head of a block is read. -/
theorem opening (h : Parse.Nests s p done (us ++ rest)) (head : Head) (brace : Nat)
    (hseam : IsSeam (texts (done ++ us)) (texts rest)) :
    Parse.Nests s (p.accept (.opening head (Text.byteSize (texts done)) brace)) (done ++ us)
      rest where
  text_eq := by rw [h.text_eq]; simp
  seam := hseam
  body := .nil (by simp [Parse.accept, floorOf])
  around := ⟨h.hasSeam, h.body, h.around⟩

/-- A block is closed. -/
theorem close (h : Parse.Nests s p done (t :: rest)) {b : OpenBlock} {bs : List OpenBlock}
    (hp : p.blocks = b :: bs) (hstop : t.stop = Text.byteSize (texts (done ++ [t])))
    (hseam : IsSeam (texts (done ++ [t])) (texts rest)) :
    Parse.Nests s (Parse.push (b.close (LineMap.ofText s) p.body t.stop) false
      { body := { nodes := b.siblings }, blocks := bs }) (done ++ [t]) rest := by
  have htext : s = texts (done ++ [t]) ++ texts rest := by rw [h.text_eq]; simp
  have haround := h.around
  have hbody := h.body
  rw [hp] at haround hbody
  obtain ⟨hstart, hsiblings, haround⟩ := haround
  refine ⟨htext, hseam, ?_, haround⟩
  have hbody : Nest (FromSeamToSeam s) b.start t.stop p.body.nodes.reverse :=
    hbody.mono (by simp [hstop])
  have hnest := hsiblings.concat (b.source?_close _ _ _)
    (fromSeamToSeam hbody.le hstart ⟨_, _, htext, hstop, hseam⟩) le_rfl
    ((b.children_close _ _ _).symm ▸ hbody)
  rw [← hstop]
  simpa [Parse.push] using hnest

/-- A statement is read. -/
theorem accept (hform : ∀ k ∈ all, k.HasForm) (htiled : Token.Tiled 0 all)
    (hlines : EndsLines all) (h : Parse.Nests s p done (t :: ts)) (hall : done ++ t :: ts = all)
    (hstart : t.start = Text.byteSize (texts done)) {before : Text} {r : Read}
    (hr : Reads (LineMap.ofText s) before (t :: ts) r) :
    ∃ done', done' ++ r.rest = all ∧ Parse.Nests s (p.accept r.statement) done' r.rest := by
  obtain ⟨us, u, hus, hstands, hlast⟩ := hr.exists_last
  have hall' : (done ++ us) ++ u :: r.rest = all := by rw [← hall, hus]; simp
  have hstop : u.stop = Text.byteSize (texts (done ++ (us ++ [u]))) := by
    rw [← hall', Token.tiled_append] at htiled
    have hu := htiled.2.1
    simp only [Token.stop, hu, Token.texts_append, Text.byteSize_append, Token.texts_cons,
      Token.texts_nil, Text.byteSize_nil]
    omega
  have hseam : IsSeam (texts (done ++ (us ++ [u]))) (texts r.rest) := by
    rw [← List.append_assoc]
    exact isSeam_of_last (hall'.symm ▸ hform) (hall'.symm ▸ hlines) hlast
  rw [hus, List.append_cons] at h
  refine ⟨done ++ (us ++ [u]), by rw [← hall']; simp, ?_⟩
  obtain ⟨statement, rest⟩ := r
  cases statement with
  | whole n terminated =>
      obtain ⟨hsource, hchildren⟩ := hstands
      rw [hstart, hstop] at hsource
      exact h.push terminated hsource hchildren hseam
  | opening head start brace =>
      obtain rfl : start = t.start := hstands
      rw [hstart]
      exact h.opening head brace hseam

/-- **A step of the parser keeps the invariant.** -/
theorem step (hform : ∀ k ∈ all, k.HasForm) (htiled : Token.Tiled 0 all) (hlines : EndsLines all)
    (h : Parse.Nests s p done (t :: ts)) (hall : done ++ t :: ts = all) {q : Parse × List Token}
    (hq : p.step g (LineMap.ofText s) t ts = .ok q) :
    ∃ done', done' ++ q.2 = all ∧ Parse.Nests s q.1 done' q.2 := by
  have hstart : t.start = Text.byteSize (texts done) := by
    rw [← hall, Token.tiled_append] at htiled
    simpa using htiled.2.1
  have hdone : (done ++ [t]) ++ ts = all := by simp [← hall]
  have ht := hform t (by simp [← hall])
  rw [Parse.step] at hq
  split at hq
  · next hk =>
      cases hq
      rw [Token.HasForm, hk] at ht
      obtain ⟨x, c, hx⟩ := (List.eq_nil_or_concat t.text).resolve_left ht.1
      rw [List.concat_eq_append] at hx
      refine ⟨done ++ [t], hdone, h.wait rfl rfl ?_⟩
      exact isSeam_append hx _ (Or.inl (ht.2 c (by simp [hx])))
  · next hk =>
      cases hq
      refine ⟨done ++ [t], hdone, h.wait rfl rfl ?_⟩
      exact isSeam_append (x := []) (ht.text_semicolon hk) _ (by simp)
  · next hk =>
      split at hq
      · contradiction
      · next b bs hp =>
          cases hq
          refine ⟨done ++ [t], hdone, h.close hp (by simp [Token.stop, hstart]) ?_⟩
          exact isSeam_append (x := []) (ht.text_closeCurly hk) _ (by simp)
  · cases hr : readStatement g (LineMap.ofText s) p.body.pending t ts with
    | error e => simp [hr, Except.map] at hq
    | ok r =>
        simp only [hr, Except.map, Except.ok.injEq] at hq
        subst hq
        exact h.accept hform htiled hlines hall hstart (reads_of_readStatement ht hr)

/-- What the parser has read when no tokens are left. -/
theorem run (hform : ∀ k ∈ all, k.HasForm) (htiled : Token.Tiled 0 all) (hlines : EndsLines all)
    {p : Parse} {done rest : List Token} (h : Parse.Nests s p done rest) (hall : done ++ rest = all)
    {body : Body}
    (hrun : p.run g (LineMap.ofText s) rest = .ok body) :
    Nest (FromSeamToSeam s) 0 (Text.byteSize s) body.nodes.reverse := by
  match rest with
  | [] =>
      rw [Parse.run] at hrun
      split at hrun
      · next hp =>
          cases hrun
          have hbody := h.body
          rwa [hp, floorOf, ← List.append_nil (texts done), ← Token.texts_nil, ← h.text_eq] at hbody
      · contradiction
  | t :: ts =>
      rw [Parse.run_cons] at hrun
      cases hq : p.step g (LineMap.ofText s) t ts with
      | error e => simp [hq, Except.bind] at hrun
      | ok q =>
          simp only [hq, Except.bind] at hrun
          obtain ⟨done', hall', h'⟩ := h.step hform htiled hlines hall hq
          have := Parse.length_snd_step_le hq
          exact Nests.run hform htiled hlines h' hall' hrun
termination_by rest.length

end Parse.Nests

/-- A style sheet stands at all of its text. -/
theorem source_of_parse {g : Grammar} {s : Text} {root : Root} (h : parse g s = .ok root) :
    root.source = some ((LineMap.ofText s).range ⟨0, Text.byteSize s⟩) := by
  rw [parse] at h
  cases ht : Token.tokenize s with
  | error e => simp [ht, bind, Except.bind] at h
  | ok tokens =>
      cases hr : Parse.run g (LineMap.ofText s) {} tokens with
      | error e => simp [ht, hr, bind, Except.bind] at h
      | ok body =>
          simp only [ht, hr, bind, Except.bind, pure, Except.pure, Except.ok.injEq] at h
          exact h ▸ rfl

/-- The text of a style sheet goes from seam to seam. -/
theorem fromSeamToSeam_whole (s : Text) :
    FromSeamToSeam s ((LineMap.ofText s).range ⟨0, Text.byteSize s⟩) :=
  ⟨rfl, Nat.zero_le _, ⟨[], s, rfl, rfl, Or.inl rfl⟩,
    ⟨s, [], by simp, rfl, Or.inr (Or.inl rfl)⟩⟩

/-- **The nodes of a style sheet nest**, and their ranges, like its own, go from seam to seam. -/
theorem nest_of_parse {g : Grammar} {s : Text} {root : Root} (h : parse g s = .ok root) :
    Nest (FromSeamToSeam s) 0 (Text.byteSize s) root.nodes := by
  obtain ⟨tokens, body, htokens, hrun, hnodes, -, -⟩ := run_of_parse h
  rw [hnodes]
  exact (Parse.Nests.init (Token.texts_of_tokenize htokens)).run
    (fun k hk => Token.hasForm_of_mem htokens hk) (Token.tiled_of_tokenize htokens)
    (Token.endsLines_of_tokenizeFrom htokens) (by simp) hrun

end StyleBlocks.Sheet
