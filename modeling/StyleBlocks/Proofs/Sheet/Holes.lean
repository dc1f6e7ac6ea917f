import StyleBlocks.Proofs.Sheet.ApartTokens
import StyleBlocks.Proofs.Sheet.BlockTokens
import StyleBlocks.Sheet.Edit

/-!
# Containers and holes

A style sheet or a block is a `Container` of nodes. Every container of a style sheet is a hole in
it: other nodes can be put there, and what is around them stays. A `Hole` says so of the nodes, of
their tokens, of what is printed and of how far parsing has come when it reaches the hole. The
latter is told by the `outline` of nodes, which is what they and the nodes below them say, in the
order of the text.

## Main results

* `Parse.exists_outline_of_run`: reading on adds to the outline of what has been read.
* `Interior.exists_hole`, `Container.exists_hole`: a block, and any container below another, is a
  hole.
* `Hole.apart`: tokens that stand apart in a hole stand apart with those around it.
-/

namespace StyleBlocks.Sheet

open Token (texts)

/-! ### Outlines -/

namespace Node

/-- Nodes are listed in the order in which they stand. -/
theorem preorderAll_append (ns ms : List Node) :
    preorderAll (ns ++ ms) = preorderAll ns ++ preorderAll ms := by
  induction ns with
  | nil => rfl
  | cons n ns ih => simp [preorderAll, ih]

/-- The **outline** of nodes: what they and the nodes below them say, parents first. -/
def outline (ns : List Node) : List Node :=
  (preorderAll (ns.map bare)).map (withChildren [])

@[simp] theorem outline_nil : outline [] = [] := rfl

/-- The outline of nodes is told node by node. -/
@[simp] theorem outline_append (ns ms : List Node) :
    outline (ns ++ ms) = outline ns ++ outline ms := by
  simp [outline, preorderAll_append]

/-- A comment has nothing below it to outline. -/
@[simp] theorem outline_comment (c : Comment) (ns : List Node) :
    outline (.comment c :: ns) = (Node.comment c).bare :: outline ns := by
  simp [outline, preorderAll, preorder, bare, withChildren]

/-- Nodes that say the same have the same outline. -/
theorem outline_congr {ns ms : List Node} (h : ns.map bare = ms.map bare) :
    outline ns = outline ms := by
  rw [outline, h, outline]

end Node

/-- What the head of a block says, as a node. -/
def Head.outline (head : Head) : Node :=
  (head.close false [] []).bare

/-- The outline of a block is its head with the outline of its nodes. -/
@[simp] theorem Node.outline_close (head : Head) (semicolon : Bool) (after : Text)
    (ns ms : List Node) : Node.outline (head.close semicolon after ns :: ms) =
      head.outline :: (Node.outline ns ++ Node.outline ms) := by
  cases head <;>
    simp [Node.outline, Head.close, Head.outline, Node.bare, Node.bareAll_eq_map, Node.preorder,
      Node.preorderAll, Node.withChildren]

/-- Heads that say the same have the same outline. -/
theorem Head.outline_congr {head head' : Head} (h : head.bare = head'.bare) :
    head.outline = head'.outline := by
  cases head <;> cases head' <;> simp_all [Head.bare, Head.outline, Head.close, Node.bare]

namespace Parse

variable {g : Grammar} {lines : LineMap} {p q : Parse} {ns : List Node} {t : Token}
  {ts : List Token}

/-- The outline of what stands around the innermost block. -/
def outlineAround : List OpenBlock → List Node
  | [] => []
  | o :: os => outlineAround os ++ (Node.outline o.siblings.reverse ++ [o.head.outline])

/-- The outline of all that has been read. -/
def outline (p : Parse) : List Node :=
  outlineAround p.blocks ++ Node.outline p.body.nodes.reverse

/-- A node that is read is put at the end of the outline. -/
theorem outline_push (p : Parse) (n : Node) (terminated : Bool) :
    (p.push n terminated).outline = p.outline ++ Node.outline [n] := by
  simp [outline, push]

/-- Nodes that are read are added to the outline. -/
theorem Adds.outline_eq (h : p.Adds q ns) : q.outline = p.outline ++ Node.outline ns := by
  have hnodes : Node.outline q.body.nodes.reverse = Node.outline (p.body.nodes.reverse ++ ns) := by
    refine Node.outline_congr ?_
    have := congrArg List.reverse h.nodes
    simpa using this
  rw [outline, h.blocks, hnodes, Node.outline_append, outline, List.append_assoc]

/-- A step of the parser adds to the outline and changes nothing in it. -/
theorem exists_outline_of_step {r : Parse × List Token} (h : p.step g lines t ts = .ok r) :
    ∃ new, r.1.outline = p.outline ++ new := by
  rw [step] at h
  split at h
  · cases h
    exact ⟨[], by simp [outline]⟩
  · cases h
    exact ⟨[], by simp [outline]⟩
  · split at h
    · contradiction
    · next o os ho =>
        cases h
        refine ⟨[], ?_⟩
        rw [OpenBlock.close_eq, outline_push]
        have hhead : ∀ source, (o.head.placed source).outline = o.head.outline := by
          intro source
          cases o.head <;> rfl
        simp [outline, ho, outlineAround, hhead]
  · obtain ⟨read, -, rfl⟩ := map_eq_ok_iff.1 h
    cases read.statement with
    | whole n terminated => exact ⟨_, outline_push p n terminated⟩
    | opening head start brace => exact ⟨[head.outline], by simp [accept, outline, outlineAround]⟩

/-- **Reading on** adds to the outline of what has been read. -/
theorem exists_outline_of_run {p : Parse} {ts : List Token} {b : Body}
    (h : p.run g lines ts = .ok b) :
    ∃ new, Node.outline b.nodes.reverse = p.outline ++ new := by
  match ts with
  | [] =>
      rw [run] at h
      split at h
      · next hblocks =>
          cases h
          exact ⟨[], by simp [outline, hblocks, outlineAround]⟩
      · contradiction
  | t :: ts =>
      rw [run_cons] at h
      cases hr : p.step g lines t ts with
      | error e => simp [hr, Except.bind] at h
      | ok r =>
          have := length_snd_step_le hr
          obtain ⟨new, hnew⟩ := exists_outline_of_step hr
          replace h : r.1.run g lines r.2 = .ok b := by simpa [hr, Except.bind] using h
          obtain ⟨more, hmore⟩ := exists_outline_of_run h
          exact ⟨new ++ more, by rw [hmore, hnew, List.append_assoc]⟩
termination_by ts.length

end Parse

/-! ### Containers -/

/-- A **container**: the nodes of a style sheet or of a block, with the raws at its end and the text
that closes it. -/
structure Container where
  /-- The nodes. -/
  nodes : List Node
  /-- Whether the last node ends in a semicolon. -/
  semicolon : Bool
  /-- What stands after the last node. -/
  after : Text
  /-- What stands at the end. -/
  closer : Text

/-- The container that a node is, if it can have a block. -/
def Node.container? : Node → Option Container
  | .rule h ns => some ⟨ns, h.semicolon, h.after.getD [], ['}']⟩
  | .atRule h ns => some ⟨ns, h.semicolon, h.after.getD [], ['}']⟩
  | _ => none

/-- The container that a style sheet is. -/
def Root.container (r : Root) : Container :=
  ⟨r.nodes, r.semicolon, r.after.getD [], []⟩

/-- The container at a path below another. -/
def Container.at? (b : Container) : Path → Option Container
  | [] => some b
  | i :: p => do at? (← (← b.nodes[i]?).container?) p

/-- There is nothing below a container without nodes. -/
theorem Container.nodes_ne_nil_of_at? {b c : Container} {p : Path} (h : b.at? p = some c)
    (hc : c.nodes ≠ []) : b.nodes ≠ [] := by
  cases p with
  | nil =>
      obtain rfl : b = c := by simpa [at?] using h
      exact hc
  | cons i p =>
      intro hnil
      simp [at?, hnil] at h

/-- A block that is closed is a container that ends with a brace. -/
@[simp] theorem Head.container?_close (head : Head) (semicolon : Bool) (after : Text)
    (ns : List Node) :
    (head.close semicolon after ns).container? = some ⟨ns, semicolon, after, ['}']⟩ := by
  cases head <;> rfl

/-- Other nodes in a block that is closed leave its head and its raws as they are. -/
@[simp] theorem Head.withChildren_close (head : Head) (semicolon : Bool) (after : Text)
    (ns ms : List Node) :
    (head.close semicolon after ns).withChildren ms = head.close semicolon after ms := by
  cases head <;> rfl

/-- A block that is closed has the nodes that were read in it. -/
@[simp] theorem Head.block?_close (head : Head) (semicolon : Bool) (after : Text)
    (ns : List Node) : (head.close semicolon after ns).block? = some ns := by
  cases head <;> rfl

/-! ### Holes -/

/-- What is in a container is printed as a text, whatever stands around it. -/
def Container.Prints (c : Container) (ns : List Node) (t : Text) : Prop :=
  ∀ depth first, Fragment.texts (({} : Printer).nodes depth first c.semicolon ns) ++ c.after = t

/-- The container `c` is a **hole** in the container `b`: the tokens `left` and `right` stand around
it, and with other nodes in it the nodes of `b` are those that `fill` gives. -/
structure Hole (g : Grammar) (inTop top : Bool) (left right : List Token)
    (fill : List Node → List Node) (c b : Container) : Prop where
  interior : ∀ {ts ns}, Interior g inTop ts ns c.semicolon c.after →
    Interior g top (left ++ ts ++ right) (fill ns) b.semicolon b.after
  prints : ∀ {ns t}, c.Prints ns t → b.Prints (fill ns) (texts left ++ t ++ texts right)
  enters : ∃ new, (∀ lines p ts, ∃ q, Parse.run g lines p (left ++ ts) = Parse.run g lines q ts ∧
      q.outline = p.outline ++ new) ∧
    ∀ ns, ∃ more, Node.outline (fill ns) = new ++ Node.outline ns ++ more
  opens : left = [] ∨ EndsOpen left
  closes : (texts right ++ b.closer).head? = c.closer.head?
  brace : ∀ k ∈ right.head?, k.kind = .closeCurly

namespace Hole

variable {g : Grammar} {inTop midTop top : Bool} {left right left' right' us ts : List Token}
  {fill fill' : List Node → List Node} {a b c : Container}

/-- A container is a hole in itself. -/
theorem refl (g : Grammar) (top : Bool) (b : Container) : Hole g top top [] [] id b b where
  interior h := by simpa using h
  prints h := by simpa using h
  enters := ⟨[], fun lines p ts => ⟨p, rfl, by simp⟩, fun ns => ⟨[], by simp⟩⟩
  opens := Or.inl rfl
  closes := rfl
  brace := by simp

/-- A hole in a hole is a hole. -/
theorem trans (h : Hole g inTop midTop left' right' fill' c b)
    (h' : Hole g midTop top left right fill b a) :
    Hole g inTop top (left ++ left') (right' ++ right) (fill ∘ fill') c a where
  interior hts := by simpa using h'.interior (h.interior hts)
  prints hns := by simpa using h'.prints (h.prints hns)
  enters := by
    obtain ⟨new, hrun, hfill⟩ := h'.enters
    obtain ⟨new', hrun', hfill'⟩ := h.enters
    refine ⟨new ++ new', fun lines p ts => ?_, fun ns => ?_⟩
    · obtain ⟨q, hq, hnew⟩ := hrun lines p (left' ++ ts)
      obtain ⟨r, hr, hnew'⟩ := hrun' lines q ts
      exact ⟨r, by rw [List.append_assoc, hq, hr], by rw [hnew', hnew, List.append_assoc]⟩
    · obtain ⟨more', hmore'⟩ := hfill' ns
      obtain ⟨more, hmore⟩ := hfill (fill' ns)
      exact ⟨more' ++ more, by simp [hmore, hmore']⟩
  opens := by
    rcases h.opens with rfl | ⟨us, u, rfl, hu⟩
    · simpa using h'.opens
    · exact Or.inr ⟨left ++ us, u, by simp, hu⟩
  closes := by
    have hclose := h.closes
    have hclose' := h'.closes
    rw [List.head?_append, ← hclose', ← List.head?_append] at hclose
    rw [Token.texts_append, List.append_assoc]
    exact hclose
  brace := by
    intro k hk
    cases right' with
    | nil => exact h'.brace k hk
    | cons v vs => exact h.brace k hk

/-- What stands in front of a hole stops in front of any text. -/
theorem apart_left (h : Hole g inTop top left right fill c b) {t : Text}
    (hleft : Token.Apart left t) (u : Text) : Token.Apart left u := by
  refine hleft.replace fun k hk => ?_
  rcases h.opens with rfl | ⟨xs, x, rfl, hx⟩
  · contradiction
  · obtain rfl : x = k := by simpa using hk
    intro d hd
    simp [Token.Ends, hx]

/-- **Tokens that stand apart in a hole** stand apart with those around it. -/
theorem apart (h : Hole g inTop top left right fill c b)
    (hts : Token.Apart (left ++ ts ++ right) b.closer) :
    Token.Apart ts c.closer ∧
      ∀ us, Token.Apart us c.closer → Token.Apart (left ++ us ++ right) b.closer := by
  obtain ⟨hfront, hright⟩ := Token.apart_append.1 hts
  obtain ⟨hleft, hts⟩ := Token.apart_append.1 hfront
  have hstop : ∀ k : Token, k.StopsAt (texts right ++ b.closer) ↔ k.StopsAt c.closer := by
    intro k
    rw [Token.StopsAt, h.closes, Token.StopsAt]
  refine ⟨hts.replace fun k hk => (hstop k).1 (hts.stopsAt hk), fun us hus => ?_⟩
  have hus := hus.replace fun k hk => (hstop k).2 (hus.stopsAt hk)
  exact Token.apart_append.2 ⟨Token.apart_append.2 ⟨h.apart_left hleft _, hus⟩, hright⟩

end Hole

/-! ### Nodes as holes -/

/-- Printing nodes in front of others: a semicolon stands behind the last of them if it needs one.
-/
theorem Printer.nodes_append (p : Printer) (ns : List Node) {ms : List Node} (hms : ms ≠ [])
    (depth : Nat) (first semicolon : Bool) :
    p.nodes depth first semicolon (ns ++ ms) =
      p.nodes depth first true ns ++ p.nodes depth (first && ns.isEmpty) semicolon ms := by
  induction ns generalizing first with
  | nil => simp [nodes]
  | cons n ns ih =>
      rw [List.cons_append, nodes, ih]
      conv => rhs; rw [nodes]
      simp [hms]

section

variable {g : Grammar} {top : Bool} {ts us rest : List Token} {A R ns : List Node} {n : Node}
  {semicolon : Bool} {after : Text} {b c : Container} {p : Path} {i : Nat}

/-- Where a node is in a list that at most one node has been put behind. -/
theorem append_eq_append_cons_cases {ms own : List Node} (hown : own.length ≤ 1)
    (h : ms ++ own = A ++ n :: R) :
    (R = [] ∧ ms = A ∧ own = [n]) ∨ ∃ R', ms = A ++ n :: R' ∧ R = R' ++ own := by
  rcases List.append_eq_append_iff.1 h with ⟨as, rfl, hown'⟩ | ⟨as, rfl, hR⟩
  · rw [hown', List.length_append, List.length_cons] at hown
    obtain rfl : as = [] := List.eq_nil_of_length_eq_zero (by omega)
    obtain rfl : R = [] := List.eq_nil_of_length_eq_zero (by omega)
    exact Or.inl ⟨rfl, by simp, hown'⟩
  · cases as with
    | nil =>
        rw [List.nil_append] at hR
        rw [← hR, List.length_cons] at hown
        obtain rfl : R = [] := List.eq_nil_of_length_eq_zero (by omega)
        exact Or.inl ⟨rfl, by simp, hR.symm⟩
    | cons m as =>
        obtain ⟨rfl, rfl⟩ := List.cons.inj hR
        exact Or.inr ⟨as, rfl, rfl⟩

/-- **What stands around a node**: the tokens of the nodes in front of it, and behind it the inside
of the same block with the nodes there. A leaf at the end of its block may not have tokens by
itself. -/
theorem Interior.around (h : Interior g top ts (A ++ n :: R) semicolon after) :
    ∃ us rest, ts = us ++ rest ∧ Items g us A ∧ ((R = [] ∧ n.children = []) ∨
      ∃ mid vs, rest = mid ++ vs ∧ Items g mid [n] ∧ Interior g top vs R semicolon after) := by
  obtain ⟨front, tail, ms, rfl, hitems, htail⟩ := h
  obtain ⟨own, hall, hown, hchildren, hbehind⟩ := htail.behind
  rcases append_eq_append_cons_cases hown hall.symm with ⟨rfl, rfl, rfl⟩ | ⟨R', rfl, rfl⟩
  · exact ⟨front, tail, rfl, hitems, Or.inl ⟨rfl, hchildren n (by simp)⟩⟩
  · obtain ⟨us, vs, rfl, hus, hvs⟩ := hitems.split
    have hvs : Items g vs ([n] ++ R') := hvs
    obtain ⟨mid, ws, rfl, hmid, hws⟩ := hvs.split
    have htail' := hbehind R' fun _ m hm _ => Or.inl ?_
    · exact ⟨us, mid ++ ws ++ tail, by simp, hus,
        Or.inr ⟨mid, ws ++ tail, by simp, hmid, ws, tail, R', rfl, hws, htail'⟩⟩
    · cases R' with
      | nil => contradiction
      | cons r R' => simpa [List.getLast?_append] using hm

/-- Any node of a list has some in front of it and some behind it. -/
theorem exists_append_cons (h : ns[i]? = some n) : ns = ns.take i ++ n :: ns.drop (i + 1) := by
  obtain ⟨hi, rfl⟩ := List.getElem?_eq_some_iff.1 h
  rw [← List.drop_eq_getElem_cons hi, List.take_append_drop]

/-- A head enters its block: it adds itself to the outline of what has been read. -/
theorem IsHead.exists_run {pend ws : List Token} {t : Token} {head : Head}
    (hhead : IsHead g t ws head) (hpend : ∀ k ∈ pend, Parse.isPending k = true) (lines : LineMap)
    (p : Parse) (ts : List Token) :
    ∃ q, p.run g lines (pend ++ t :: ws ++ ts) = Parse.run g lines q ts ∧
      q.outline = p.outline ++ [head.outline] := by
  obtain ⟨head', start, brace, hread, hbare⟩ :=
    hhead.readStatement_eq lines (p.body.pending ++ texts pend) ts
  refine ⟨{ body := {}, blocks := ⟨head', start, brace, p.body.nodes⟩ :: p.blocks }, ?_, ?_⟩
  · rw [List.append_assoc, List.cons_append, Parse.run_pending hpend, Parse.run_cons,
      Parse.step_statement hhead.begins.notPending hhead.begins.notClose, hread]
    rfl
  · simp [Parse.outline, Parse.outlineAround, Head.outline_congr hbare]

/-- The inside of a block is a hole in what is around the block. -/
theorem hole_of_block {pend ws vs : List Token} {t v : Token} {head : Head} (hus : Items g us A)
    (hpend : ∀ k ∈ pend, Parse.isPending k = true) (hhead : IsHead g t ws head)
    (hneeds : ∀ s a ns, (head.close s a ns).needsSemicolon = false)
    (hprints : head.Prints (texts (pend ++ t :: ws))) (hv : v.kind = .closeCurly)
    (htext : v.text = ['}']) (hvs : Interior g top vs R b.semicolon b.after)
    (hc : c.closer = ['}']) :
    Hole g false top (us ++ (pend ++ t :: ws)) (v :: vs)
      (fun ns => A ++ head.close c.semicolon c.after ns :: R) c b where
  interior := by
    rintro _ ks ⟨inner, tail, ms, rfl, hinner, htail⟩
    have hblock := Items.block hpend hhead hneeds hprints hinner htail hv htext .nil
    have hrest := hblock.append_interior hvs fun _ m hm hm' => by
      obtain rfl : head.close c.semicolon c.after ks = m := by simpa using hm
      simp [hneeds] at hm'
    simpa using hus.append_interior hrest (by simp)
  prints := by
    intro ks w hks depth first
    rw [Printer.nodes_append _ A (List.cons_ne_nil _ R), Fragment.texts_append, hus.prints,
      Printer.nodes, Fragment.texts_append, Fragment.texts_append, hprints, hneeds,
      ← hks (depth + 1) false, Token.texts_cons, ← hvs.prints depth false]
    simp [htext]
  enters := by
    refine ⟨Node.outline A ++ [head.outline], fun lines p ts => ?_, fun ns => ?_⟩
    · obtain ⟨q, hq, hadds⟩ := hus.run_eq lines p (pend ++ t :: ws ++ ts)
      obtain ⟨r, hr, hnew⟩ := hhead.exists_run hpend lines q ts
      exact ⟨r, by rw [List.append_assoc, hq, hr],
        by rw [hnew, hadds.outline_eq, List.append_assoc]⟩
    · exact ⟨Node.outline R, by simp⟩
  opens := by
    obtain ⟨xs, x, hxs, hx⟩ := hhead.endsOpen
    exact Or.inr ⟨us ++ (pend ++ xs), x, by rw [hxs]; simp, hx⟩
  closes := by simp [htext, hc]
  brace := by simpa using hv

/-- **A block is a hole** in what is around it. -/
theorem Interior.exists_hole (h : Interior g top ts b.nodes b.semicolon b.after)
    (hn : b.nodes[i]? = some n) (hc : n.container? = some c) (hne : c.nodes ≠ []) :
    ∃ left inner right, ts = left ++ inner ++ right ∧
      Interior g false inner c.nodes c.semicolon c.after ∧ n.block? = some c.nodes ∧
      Hole g false top left right (fun ns => b.nodes.set i (n.withChildren ns)) c b := by
  have hall := exists_append_cons hn
  have hset : ∀ m, b.nodes.set i m = b.nodes.take i ++ m :: b.nodes.drop (i + 1) := by
    intro m
    rw [List.set_eq_take_append_cons_drop, if_pos (List.getElem?_eq_some_iff.1 hn).1]
  simp only [hset]
  rw [hall] at h
  generalize b.nodes.take i = A at *
  generalize b.nodes.drop (i + 1) = R at *
  have hchildren : n.children = c.nodes := by
    cases n <;> simp [Node.container?] at hc <;> subst hc <;> rfl
  obtain ⟨us, rest, rfl, hus, ⟨-, hnil⟩ | ⟨mid, vs, rfl, hmid, hvs⟩⟩ := h.around
  · exact absurd (hchildren.symm.trans hnil) hne
  cases hmid with
  | comment hpend hcomment =>
      obtain ⟨m, rfl⟩ := exists_comment_of_commentOf? hcomment
      simp [Node.container?] at hc
  | leaf hpend hleaf => exact absurd (hchildren.symm.trans hleaf.children_eq_nil) hne
  | @block pend ws inner tail _ t v head ms ks _ s a hpend hhead hneeds hprints hinner htail hv
      htext hrest =>
      cases hrest
      obtain rfl : (⟨ks, s, a, ['}']⟩ : Container) = c := by simpa using hc
      refine ⟨us ++ (pend ++ t :: ws), inner ++ tail, v :: vs, by simp,
        ⟨inner, tail, ms, rfl, hinner, htail⟩, by simp, ?_⟩
      have hole := hole_of_block (c := ⟨ks, s, a, ['}']⟩) hus hpend hhead hneeds hprints hv htext
        hvs rfl
      simpa using hole

/-- **Every container is a hole** in those around it. -/
theorem Container.exists_hole (h : Interior g top ts b.nodes b.semicolon b.after)
    (hp : b.at? p = some c) (hne : c.nodes ≠ []) :
    ∃ inTop left inner right fill, ts = left ++ inner ++ right ∧
      Interior g inTop inner c.nodes c.semicolon c.after ∧ Hole g inTop top left right fill c b ∧
      ∀ f, Node.editBlock? f b.nodes p = (f c.nodes).map fill := by
  induction p generalizing b top ts with
  | nil =>
      obtain rfl : b = c := by simpa [Container.at?] using hp
      refine ⟨top, [], ts, [], id, by simp, h, .refl g top b, fun f => ?_⟩
      rw [Node.editBlock?, Option.map_id]
      rfl
  | cons i p ih =>
      obtain ⟨n, hn, d, hd, hp⟩ : ∃ n, b.nodes[i]? = some n ∧
          ∃ d, n.container? = some d ∧ d.at? p = some c := by
        simpa [Container.at?, Option.bind_eq_some_iff] using hp
      obtain ⟨left, inner, right, rfl, hinner, hblock, hole⟩ :=
        h.exists_hole hn hd (Container.nodes_ne_nil_of_at? hp hne)
      obtain ⟨inTop, left', inner', right', fill, rfl, hinner', hole', hedit⟩ := ih hinner hp
      refine ⟨inTop, left ++ left', inner', right' ++ right, _, by simp, hinner', hole'.trans hole,
        fun f => ?_⟩
      rw [Node.editBlock?, hn, Option.bind_eq_bind, Option.bind_some, hblock, Option.bind_eq_bind,
        Option.bind_some, hedit]
      cases f c.nodes <;> rfl

end

end StyleBlocks.Sheet
