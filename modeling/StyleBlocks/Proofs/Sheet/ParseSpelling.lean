import StyleBlocks.Proofs.Sheet.StatementSpelling

/-!
# A style sheet is printed as it was read

While a style sheet is parsed, what has been read is always what would be printed: the fragments of
the open blocks and of the nodes read so far spell the tokens read so far, the blanks in front of
the next node apart. Each step of the parser keeps this, so it holds of the whole style sheet.

## Main results

* `Printer.nodes_concat`: printing a list of nodes goes node by node.
* `Reading.step`: a step of the parser keeps the invariant.
* `spells_of_parse`: the nodes of a parsed style sheet spell its tokens up to the blanks at its end.
-/

namespace StyleBlocks.Sheet

open Token (texts)

/-! ### Lists of nodes -/

namespace Printer

variable (p : Printer)

/-- The semicolon behind the last of some nodes matters only if that node needs one. -/
theorem nodes_semicolon {ns : List Node} {semicolon : Bool}
    (h : ∀ n ∈ ns.getLast?, n.needsSemicolon = true → semicolon = true) (depth : Nat)
    (first : Bool) :
    p.nodes depth first semicolon ns = p.nodes depth first true ns := by
  induction ns generalizing first with
  | nil => rfl
  | cons n ns ih =>
      cases ns with
      | nil =>
          have hn := h n rfl
          cases hs : n.needsSemicolon
          · simp [nodes, hs]
          · simp [nodes, hs, hn hs]
      | cons m ns =>
          have ih := ih (fun k hk => h k (by simpa using hk)) false
          rw [nodes, ih]
          conv => rhs; rw [nodes]
          simp

/-- **Printing goes node by node**: with one more node at the end, what is in front of it is printed
as before, with a semicolon behind its last node if that needs one. -/
theorem nodes_concat (ns : List Node) (n : Node) (depth : Nat) (first semicolon : Bool) :
    p.nodes depth first semicolon (ns ++ [n]) =
      p.nodes depth first true ns ++ (p.node depth (first && ns.isEmpty) n ++
        if n.needsSemicolon && semicolon then emit n.owner [';'] else []) := by
  induction ns generalizing first with
  | nil => simp [nodes]
  | cons m ns ih =>
      rw [List.cons_append, nodes, ih]
      conv => rhs; rw [nodes]
      simp

end Printer

/-! ### What has been printed -/

namespace Rendering

variable (R : Rendering)

/-- The fragments of the heads of open blocks, and of the nodes in front of each. -/
def around : List OpenBlock → List Fragment
  | [] => []
  | b :: bs =>
    around bs ++ (R.printer.nodes bs.length bs.isEmpty true (b.siblings.reverse.map R.move) ++
      b.head.fragments R.write b.start)

/-- The fragments of all that has been read, the blanks in front of the next node apart. -/
def printed (p : Parse) : List Fragment :=
  R.around p.blocks ++ R.printer.nodes p.blocks.length p.blocks.isEmpty p.body.semicolon
    (p.body.nodes.reverse.map R.move)

end Rendering

/-- The newest node of a body has the semicolon that it needs. -/
def Body.IsSettled (b : Body) : Prop :=
  ∀ n ∈ b.nodes.head?, n.needsSemicolon = true → b.semicolon = true

namespace Rendering

variable {R : Rendering} {p : Parse}

/-- The nodes of a settled body are printed as they are in front of another node. -/
theorem nodes_of_isSettled (h : p.body.IsSettled) (depth : Nat) (first : Bool) :
    R.printer.nodes depth first p.body.semicolon (p.body.nodes.reverse.map R.move) =
      R.printer.nodes depth first true (p.body.nodes.reverse.map R.move) := by
  refine R.printer.nodes_semicolon (fun n hn hs => ?_) depth first
  rw [List.getLast?_map, List.getLast?_reverse, Option.mem_def,
    Option.map_eq_some_iff] at hn
  obtain ⟨m, hm, rfl⟩ := hn
  exact h m hm (by rwa [R.needsSemicolon_move] at hs)

/-- One more node is printed behind what has been printed. -/
theorem printed_push (h : p.body.IsSettled) (n : Node) (terminated : Bool) :
    R.printed (p.push n terminated) = R.printed p ++
      (R.printer.node p.blocks.length (p.blocks.isEmpty && p.body.nodes.isEmpty) (R.move n) ++
        if n.needsSemicolon && terminated then Printer.emit n.owner [';'] else []) := by
  simp only [printed, Parse.push, nodes_of_isSettled h]
  rw [List.reverse_cons, List.map_append, List.map_singleton, Printer.nodes_concat,
    R.needsSemicolon_move, R.owner_move]
  simp

/-- The head of one more block is printed behind what has been printed. -/
theorem printed_opening (h : p.body.IsSettled) (head : Head) (start brace : Nat) :
    R.printed (p.accept (.opening head start brace)) =
      R.printed p ++ head.fragments R.write start := by
  simp only [printed, nodes_of_isSettled h]
  simp [Parse.accept, around, Printer.nodes]

/-- The end of a block is printed behind what has been printed. -/
theorem printed_close {b : OpenBlock} {bs : List OpenBlock} (hp : p.blocks = b :: bs)
    (hb : b.head.IsComplete) (lines : LineMap) (stop : Nat) :
    R.printed (Parse.push (b.close lines p.body stop) false
        { body := { nodes := b.siblings }, blocks := bs }) =
      R.printed p ++ (Printer.emit b.head.owner
          (R.write .inner (stop - (1 + Text.byteSize p.body.pending)) p.body.pending) ++
        [Printer.mark b.head.owner .stop ['}']]) := by
  simp only [printed, Parse.push, hp, around]
  rw [List.reverse_cons, List.map_append, List.map_singleton, Printer.nodes_concat,
    R.node_close b hb]
  simp

end Rendering

/-- A block needs no semicolon behind it. -/
theorem OpenBlock.needsSemicolon_close {b : OpenBlock} (hb : b.head.IsComplete) (lines : LineMap)
    (body : Body) (stop : Nat) : (b.close lines body stop).needsSemicolon = false := by
  obtain ⟨head, start, brace, siblings⟩ := b
  cases head with
  | rule h => exact hb.1
  | atRule h => rfl

/-! ### Steps -/

/-- The **invariant of parsing**: the tokens `done` have been read and are what would be printed,
the tokens `pend` are the blanks and stray semicolons behind them, and the tokens `rest` are yet to
be read. Behind a node that lacks its semicolon, or that a line begins behind, the block ends. -/
structure Reading (R : Rendering) (front : Nat → Text) (p : Parse) (done pend rest : List Token) :
    Prop where
  pending : p.body.pending = texts pend
  stray : ∀ k ∈ pend, k.kind = .space ∨ k.kind = .semicolon
  complete : ∀ b ∈ p.blocks, b.head.IsComplete
  printed : (done = [] ∧ p.blocks = [] ∧ p.body.nodes = []) ∨
    (Token.EndsSolid done ∧ Spells front (front 1) [] done (R.printed p) ∧
      ((p.body.IsSettled ∧ ¬ Text.AtLineStart (texts done)) ∨ AtBlockEnd rest))

namespace Reading

variable {R : Rendering} {front : Nat → Text} {p : Parse} {all done pend ts us : List Token}
  {t : Token} {g : Grammar} {lines : LineMap}

/-- The invariant holds in front of the first token. -/
theorem init (tokens : List Token) : Reading R front {} [] [] tokens where
  pending := rfl
  stray := by simp
  complete := by simp
  printed := Or.inl ⟨rfl, rfl, rfl⟩

/-- What is printed in front of something else than the end of a block spells the tokens behind
those read. -/
theorem spells_append {rest : List Token} (h : Reading R front p done pend rest)
    (hrest : ¬ AtBlockEnd rest) :
    p.body.IsSettled ∧ ∀ us fs, Spells front (leadAfter front done) done us fs →
      Spells front (front 1) [] (done ++ us) (R.printed p ++ fs) := by
  rcases h.printed with ⟨rfl, hblocks, hnodes⟩ | ⟨-, hprinted, hsettled⟩
  · refine ⟨by simp [Body.IsSettled, hnodes], fun us fs hfs => ?_⟩
    simpa [Rendering.printed, Rendering.around, hblocks, hnodes, Printer.nodes, leadAfter,
      Text.AtLineStart, lineAfter] using hfs
  · obtain ⟨hsettled, hline⟩ := hsettled.resolve_right hrest
    refine ⟨hsettled, fun us fs hfs => ?_⟩
    rw [leadAfter, if_neg hline] at hfs
    exact hprinted.append (by simpa using hfs)

/-- A blank or a stray semicolon waits for what comes behind it. -/
theorem wait (h : Reading R front p done pend (t :: ts))
    (ht : t.kind = .space ∨ t.kind = .semicolon) :
    Reading R front { p with body := { p.body with pending := p.body.pending ++ t.text } } done
      (pend ++ [t]) ts where
  pending := by simp [h.pending]
  stray k hk := by
    rcases List.mem_append.1 hk with hk | hk
    · exact h.stray k hk
    · rwa [List.mem_singleton.1 hk]
  complete := h.complete
  printed := by
    refine h.printed.imp_right fun hp => ⟨hp.1, hp.2.1, hp.2.2.imp_right fun hend => ?_⟩
    rcases hend with hk | ⟨-, hend⟩
    · simp [hk] at ht
    · exact hend

/-- A closing brace is printed behind the body of its block. -/
theorem close (hR : R.Indents front (texts all)) (hform : ∀ k ∈ all, k.HasForm)
    (h : Reading R front p done pend (t :: ts)) (hall : done ++ pend ++ t :: ts = all)
    (hstart : t.start = Text.byteSize (texts (done ++ pend))) (ht : t.kind = .closeCurly)
    {b : OpenBlock} {bs : List OpenBlock} (hp : p.blocks = b :: bs) :
    Reading R front (Parse.push (b.close lines p.body t.stop) false
      { body := { nodes := b.siblings }, blocks := bs }) (done ++ pend ++ [t]) [] ts := by
  have htext : t.text = ['}'] := (hform t (by simp [← hall])).text_closeCurly ht
  have hb := h.complete b (by simp [hp])
  obtain ⟨-, hprinted, -⟩ := h.printed.resolve_left fun hnil => by simp [hp] at hnil
  refine ⟨rfl, by simp, fun c hc => h.complete c (by rw [hp]; exact List.mem_cons_of_mem b hc),
    Or.inr ⟨.of_ending ht (by decide) _, ?_, Or.inl ⟨?_, ?_⟩⟩⟩
  · rw [Rendering.printed_close hp hb, h.pending]
    have hoffset : t.stop - (1 + Text.byteSize (texts pend)) = Text.byteSize (texts done) := by
      simp [Token.stop, htext, hstart]
      omega
    have hread : done ++ pend <+: all := by simp [← hall]
    have hafter := hR.spells_emit hform hread hoffset b.head.owner
    have hclose : Spells front [] (done ++ pend) [t] [Printer.mark b.head.owner .stop ['}']] :=
      .single (by simp [Printer.mark, htext, Text.indentFrom_of_notMem])
    simpa using hprinted.append (hafter.append hclose)
  · rintro n hn hs
    obtain rfl := Option.some_inj.1 hn
    exact absurd hs (by simp [OpenBlock.needsSemicolon_close hb])
  · exact not_atLineStart_of_notMem _ (by simp [htext]) (by simp [htext])

/-- A statement is printed behind what is in front of it. -/
theorem accept (hR : R.Indents front (texts all)) (hform : ∀ k ∈ all, k.HasForm)
    (htiled : Token.Tiled 0 all) (h : Reading R front p done pend (t :: ts))
    (hall : done ++ pend ++ t :: ts = all) (hend : ¬ AtBlockEnd (t :: ts)) {r : Read}
    (hr : Reads lines (texts pend) (t :: ts) r) :
    ∃ used, t :: ts = used ++ r.rest ∧
      Reading R front (p.accept r.statement) (done ++ (pend ++ used)) [] r.rest := by
  obtain ⟨statement, rest⟩ := r
  cases statement with
  | whole n terminated =>
      obtain ⟨used, hused, hsolid, hclosed, hspells⟩ := hR.spells_whole hform hr hall htiled
      obtain ⟨hsettled, happend⟩ := h.spells_append hend
      refine ⟨used, hused, rfl, by simp, h.complete, Or.inr ⟨(hsolid.append _).append _, ?_, ?_⟩⟩
      · rw [Parse.accept, Rendering.printed_push hsettled]
        exact happend _ _ (hspells _ _)
      · rw [← List.append_assoc]
        refine hclosed.imp_left fun hn => ⟨?_, hn.2⟩
        rintro m hm
        obtain rfl := Option.some_inj.1 hm
        exact hn.1
  | opening head start brace =>
      obtain ⟨used, hused, hsolid, hhead, hline, hspells⟩ := hR.spells_opening hform hr hall htiled
      obtain ⟨hsettled, happend⟩ := h.spells_append hend
      refine ⟨used, hused, rfl, by simp, ?_,
        Or.inr ⟨(hsolid.append _).append _, ?_,
          Or.inl ⟨by simp [Body.IsSettled, Parse.accept], ?_⟩⟩⟩
      · rintro b (_ | ⟨_, hb⟩)
        · exact hhead
        · exact h.complete b hb
      · rw [Rendering.printed_opening hsettled]
        exact happend _ _ hspells
      · rwa [← List.append_assoc]

/-- **A step of the parser keeps the invariant.** -/
theorem step (hR : R.Indents front (texts all)) (hform : ∀ k ∈ all, k.HasForm)
    (htiled : Token.Tiled 0 all) (h : Reading R front p done pend (t :: ts))
    (hall : done ++ pend ++ t :: ts = all) {q : Parse × List Token}
    (hq : p.step g lines t ts = .ok q) :
    ∃ done' pend', done' ++ pend' ++ q.2 = all ∧ Reading R front q.1 done' pend' q.2 := by
  have hstart : t.start = Text.byteSize (texts (done ++ pend)) := by
    rw [← hall, Token.tiled_append] at htiled
    simpa using htiled.2.1
  rw [Parse.step] at hq
  split at hq
  · next hk =>
      cases hq
      exact ⟨done, pend ++ [t], by simp [← hall], h.wait (Or.inl hk)⟩
  · next hk =>
      cases hq
      exact ⟨done, pend ++ [t], by simp [← hall], h.wait (Or.inr hk)⟩
  · next hk =>
      split at hq
      · contradiction
      · next b bs hp =>
          cases hq
          exact ⟨_, [], by simp [← hall], h.close hR hform hall hstart hk hp⟩
  · next hspace hsemicolon hclose =>
      cases hr : readStatement g lines p.body.pending t ts with
      | error e => simp [hr, Except.map] at hq
      | ok r =>
          simp only [hr, Except.map, Except.ok.injEq] at hq
          subst hq
          rw [h.pending] at hr
          have hreads := reads_of_readStatement (hform t (by simp [← hall])) hr
          have hend : ¬ AtBlockEnd (t :: ts) := by
            rintro (hk | ⟨hk, -⟩)
            · exact hclose hk
            · exact hspace hk
          obtain ⟨used, hused, hreading⟩ := h.accept hR hform htiled hall hend hreads
          exact ⟨_, [], by simp [← hall, hused], hreading⟩

end Reading

/-- **What is read is what would be printed**: the nodes of a style sheet spell its tokens up to the
blanks and stray semicolons at its end. -/
theorem Reading.run {R : Rendering} {front : Nat → Text} {g : Grammar} {lines : LineMap}
    {all : List Token} (hR : R.Indents front (texts all)) (hform : ∀ k ∈ all, k.HasForm)
    (htiled : Token.Tiled 0 all) {p : Parse} {done pend rest : List Token}
    (h : Reading R front p done pend rest) (hall : done ++ pend ++ rest = all) {body : Body}
    (hrun : p.run g lines rest = .ok body) :
    ∃ done' pend', done' ++ pend' = all ∧ Reading R front { body := body } done' pend' [] := by
  match rest with
  | [] =>
      rw [Parse.run] at hrun
      split at hrun
      · next hp =>
          cases hrun
          refine ⟨done, pend, by simpa using hall, ?_⟩
          obtain ⟨b, bs⟩ := p
          cases hp
          exact h
      · contradiction
  | t :: ts =>
      rw [Parse.run_cons] at hrun
      cases hq : p.step g lines t ts with
      | error e => simp [hq, Except.bind] at hrun
      | ok q =>
          simp only [hq, Except.bind] at hrun
          obtain ⟨done', pend', hall', h'⟩ := h.step hR hform htiled hall hq
          have := Parse.length_snd_step_le hq
          exact Reading.run hR hform htiled h' hall' hrun
termination_by rest.length

/-- A style sheet is what the parser has read when its tokens are used up. -/
theorem run_of_parse {g : Grammar} {t : Text} {root : Root} (h : parse g t = .ok root) :
    ∃ tokens body, Token.tokenize t = .ok tokens ∧
      Parse.run g (LineMap.ofText t) {} tokens = .ok body ∧ root.nodes = body.nodes.reverse ∧
      root.after = some body.pending ∧ root.semicolon = body.semicolon := by
  rw [parse] at h
  cases ht : Token.tokenize t with
  | error e => simp [ht, bind, Except.bind] at h
  | ok tokens =>
      cases hr : Parse.run g (LineMap.ofText t) {} tokens with
      | error e => simp [ht, hr, bind, Except.bind] at h
      | ok body =>
          simp only [ht, hr, bind, Except.bind, pure, Except.pure, Except.ok.injEq] at h
          subst h
          exact ⟨tokens, body, rfl, hr, rfl, rfl, rfl⟩

/-- **A style sheet is printed as it was read**, whatever the rendering indents: its nodes spell its
tokens up to the blanks and stray semicolons at its end. -/
theorem spells_of_parse {R : Rendering} {front : Nat → Text} {g : Grammar} {t : Text} {root : Root}
    (hR : R.Indents front t) (h : parse g t = .ok root) :
    ∃ done pend, Token.tokenize t = .ok (done ++ pend) ∧ root.after = some (texts pend) ∧
      (∀ k ∈ pend, k.kind = .space ∨ k.kind = .semicolon) ∧
      ((done = [] ∧ root.nodes = []) ∨
        Token.EndsSolid done ∧ Spells front (front 1) [] done
          (R.printer.nodes 0 true root.semicolon (root.nodes.map R.move))) := by
  obtain ⟨tokens, body, htokens, hrun, hnodes, hafter, hsemicolon⟩ := run_of_parse h
  obtain rfl := Token.texts_of_tokenize htokens
  have hform : ∀ k ∈ tokens, k.HasForm := fun k hk => Token.hasForm_of_mem htokens hk
  obtain ⟨done, pend, hall, hreading⟩ :=
    Reading.run hR hform (Token.tiled_of_tokenize htokens) (.init tokens) (by simp) hrun
  refine ⟨done, pend, by rw [hall, htokens], by rw [hafter, hreading.pending], hreading.stray, ?_⟩
  rw [hnodes, hsemicolon]
  refine hreading.printed.imp (fun hnil => ⟨hnil.1, List.reverse_eq_nil_iff.2 hnil.2.2⟩)
    fun hprinted => ⟨hprinted.1, ?_⟩
  simpa [Rendering.printed, Rendering.around] using hprinted.2.1

end StyleBlocks.Sheet
