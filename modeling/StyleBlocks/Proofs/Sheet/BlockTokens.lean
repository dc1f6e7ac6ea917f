import StyleBlocks.Proofs.Sheet.LeafForm
import StyleBlocks.Proofs.Sheet.ParseSpelling

/-!
# The tokens of a block

`Items` and `Tail` tell the tokens of a block, or of a style sheet, apart into those of its nodes.
Every node but the last ends by itself: a comment, a leaf with its semicolon, a block. The last one
can be a leaf without a semicolon, behind which nothing stands but blanks and stray semicolons.
Nodes come with the tokens they are printed as, and only what they say is read off these tokens
again. So a block can be put together from the tokens of nodes that have never stood beside each
other.

## Main results

* `Items.prints`, `Tail.prints`: nodes are printed as their tokens.
* `Items.run_eq`, `Tail.run_eq`: what is read of the tokens of nodes says what these do.
* `Parse.told_of_run`: what has been read has such tokens.
-/

namespace StyleBlocks.Sheet

open Token (texts)

/-! ### Printed nodes -/

/-- A node is **printed as** a text, wherever it stands. -/
def Node.Prints (n : Node) (t : Text) : Prop :=
  ∀ depth first, Fragment.texts (({} : Printer).node depth first n) = t

/-- The node that a block is, given its head. -/
def Head.close (head : Head) (semicolon : Bool) (after : Text) (ns : List Node) : Node :=
  match head with
  | .rule h => .rule { h with after := some after, semicolon := semicolon } ns
  | .atRule h => .atRule { h with after := some after, semicolon := semicolon } ns

/-- The head of a block is **printed as** a text with its brace, whatever is in the block. -/
def Head.Prints (head : Head) (t : Text) : Prop :=
  ∀ depth first semicolon after ns,
    Fragment.texts (({} : Printer).node depth first (head.close semicolon after ns)) =
      t ++ Fragment.texts (({} : Printer).nodes (depth + 1) false semicolon ns) ++ after ++ ['}']

@[simp] theorem Fragment.texts_nil : Fragment.texts [] = [] := rfl

/-- The text of a fragment stands in front of those behind it. -/
theorem Fragment.texts_cons (f : Fragment) (fs : List Fragment) :
    Fragment.texts (f :: fs) = f.text ++ Fragment.texts fs := by
  simp [Fragment.texts]

section

variable {lines : LineMap} {before : Text} {t : Token} {ts rest : List Token} {n : Node}
  {terminated : Bool}

/-- A node without a block that has been read is printed as its tokens, and with a semicolon if one
ends it. -/
theorem Reads.prints (h : Reads lines before (t :: ts) ⟨.whole n terminated, rest⟩) :
    ∃ used, n.Prints (before ++ texts used) ∧
      ((terminated = true ∧ n.needsSemicolon = true ∧
          ∃ u, u.kind = .semicolon ∧ t :: ts = used ++ u :: rest) ∨
        (terminated = false ∧ t :: ts = used ++ rest)) := by
  cases h with
  | @comment _ _ inner hk ht =>
      refine ⟨[t], fun depth first => ?_, Or.inr ⟨rfl, rfl⟩⟩
      simp [Printer.node, Printer.comment, Printer.lookUp, Overrides.none, Fragment.texts_append,
        Fragment.texts_emit, ht]
  | inlineComment hk ht hn =>
      refine ⟨[t], fun depth first => ?_, Or.inr ⟨rfl, rfl⟩⟩
      simp [Printer.node, Printer.comment, Printer.lookUp, Overrides.none, Fragment.texts_append,
        Fragment.texts_emit, ht]
  | @atStatement _ u _ gap core back _ name ht hn hts hu =>
      refine ⟨t :: (gap ++ core ++ back), fun depth first => ?_,
        Or.inl ⟨rfl, rfl, u, hu, by simp [hts]⟩⟩
      simp [Printer.node, Printer.atRuleHead, Printer.mark, Printer.lookUp, Overrides.none,
        Fragment.texts_append, Fragment.texts_cons, Fragment.texts_emit, ht]
  | @openAtStatement _ _ gap core back _ name stop ht hn hts hlast hstop hback hrest =>
      refine ⟨t :: (gap ++ core), fun depth first => ?_, Or.inr ⟨rfl, by simp [hts]⟩⟩
      simp [Printer.node, Printer.atRuleHead, Printer.mark, Printer.lookUp, Overrides.none,
        Fragment.texts_append, Fragment.texts_cons, Fragment.texts_emit, ht]
  | @mixin _ u _ core back _ hts hu =>
      refine ⟨core ++ back, fun depth first => ?_, Or.inl ⟨rfl, rfl, u, hu, hts⟩⟩
      simp [Printer.node, Printer.mark, Printer.lookUp, Overrides.none, Fragment.texts_append,
        Fragment.texts_cons, Fragment.texts_emit]
  | @declaration _ u _ prop gap value after _ hts hu =>
      refine ⟨prop ++ gap ++ value ++ after, fun depth first => ?_,
        Or.inl ⟨rfl, rfl, u, hu, hts⟩⟩
      simp [Printer.node, Printer.declaration, Printer.mark, Printer.lookUp, Overrides.none,
        Fragment.texts_append, Fragment.texts_cons, Fragment.texts_emit]
  | @openDeclaration _ _ prop gap value back _ stop hts hlast hstop hback hrest =>
      refine ⟨prop ++ gap ++ value, fun depth first => ?_, Or.inr ⟨rfl, by simp [hts]⟩⟩
      simp [Printer.node, Printer.declaration, Printer.mark, Printer.lookUp, Overrides.none,
        Fragment.texts_append, Fragment.texts_cons, Fragment.texts_emit]

/-- The head of a block that has been read is printed as its tokens. -/
theorem Reads.headPrints {head : Head} {start brace : Nat} (hform : ∀ k ∈ t :: ts, k.HasForm)
    (h : Reads lines before (t :: ts) ⟨.opening head start brace, rest⟩) :
    ∃ used, head.Prints (before ++ texts used) ∧ t :: ts = used ++ rest ∧
      ∀ semicolon after ns, (head.close semicolon after ns).needsSemicolon = false := by
  cases h with
  | @atRule _ u _ gap core back _ name ht hn hts hu =>
      have htext := (hform u (by simp [hts])).text_openCurly hu
      refine ⟨t :: (gap ++ core ++ back ++ [u]), fun depth first semicolon after ns => ?_,
        by simp [hts], fun _ _ _ => rfl⟩
      simp [Head.close, Printer.node, Printer.atRuleHead, Printer.block, Printer.mark,
        Printer.lookUp, Overrides.none, Fragment.texts_append, Fragment.texts_cons,
        Fragment.texts_emit, ht, htext]
  | @rule _ u _ core back _ hts hu =>
      have htext := (hform u (by rw [hts]; simp)).text_openCurly hu
      refine ⟨core ++ back ++ [u], fun depth first semicolon after ns => ?_, by simp [hts],
        fun _ _ _ => rfl⟩
      simp [Head.close, Printer.node, Printer.block, Printer.mark, Printer.lookUp,
        Overrides.none, Fragment.texts_append, Fragment.texts_cons, Fragment.texts_emit, htext]

end

/-! ### The tokens of nodes -/

/-- Comments are no blanks, semicolons or braces. -/
theorem kind_of_commentOf? {g : Grammar} {t : Token} {n : Node} (h : commentOf? g t = some n) :
    (t.kind ≠ .space ∧ t.kind ≠ .semicolon) ∧ t.kind ≠ .closeCurly := by
  rw [commentOf?] at h
  split at h <;> simp_all

/-- What says the same as a comment is one. -/
theorem exists_comment_of_commentOf? {g : Grammar} {t : Token} {n : Node}
    (h : commentOf? g t = some n.bare) : ∃ c, n = .comment c := by
  cases n with
  | comment c => exact ⟨c, rfl⟩
  | _ => simp [commentOf?, Node.bare] at h; split at h <;> simp_all

/-- Comments need no semicolon. -/
theorem needsSemicolon_of_commentOf? {g : Grammar} {t : Token} {n : Node}
    (h : commentOf? g t = some n.bare) : n.needsSemicolon = false := by
  obtain ⟨c, rfl⟩ := exists_comment_of_commentOf? h
  rfl

/-- What stands behind the nodes `ms` at the end of a block: blanks and stray semicolons, in front
of which there may be one more node, a leaf without a semicolon of its own. Together the nodes are
`ns`, and `semicolon` and `after` are the raws of the block. At the `top` level nothing closes the
block. -/
inductive Tail (g : Grammar) (top : Bool) (ms : List Node) :
    List Token → List Node → Bool → Text → Prop
  | blank {pend : List Token} {semicolon : Bool} (hpend : ∀ k ∈ pend, Parse.isPending k = true)
      (hsemicolon : ∀ n ∈ ms.getLast?, n.needsSemicolon = true → semicolon = true) :
      Tail g top ms pend ms semicolon (texts pend)
  | leaf {pend core behind : List Token} {t : Token} {n : Node} {own after : Text}
      (hpend : ∀ k ∈ pend, Parse.isPending k = true) (hleaf : Leaf g t core n)
      (hbehind : ∀ k ∈ behind, Parse.isPending k = true)
      (hmixin : n.isMixin = false ∨ ∃ k ∈ behind, k.kind = .semicolon)
      (hclosed : (top = true ∧ ∀ k ∈ behind, k.isSpace = true) ∨ depthAfterAll 0 (t :: core) = 0)
      (hprints : n.Prints (texts (pend ++ t :: core) ++ own))
      (hafter : texts behind = own ++ after) :
      Tail g top ms (pend ++ t :: core ++ behind) (ms ++ [n]) false after

/-- The tokens of nodes that end by themselves. -/
inductive Items (g : Grammar) : List Token → List Node → Prop
  | nil : Items g [] []
  | comment {pend ts : List Token} {t : Token} {n : Node} {ns : List Node}
      (hpend : ∀ k ∈ pend, Parse.isPending k = true) (hcomment : commentOf? g t = some n.bare)
      (hprints : n.Prints (texts (pend ++ [t]))) (hrest : Items g ts ns) :
      Items g (pend ++ t :: ts) (n :: ns)
  | leaf {pend core back ts : List Token} {t u : Token} {n : Node} {ns : List Node}
      (hpend : ∀ k ∈ pend, Parse.isPending k = true) (hleaf : Leaf g t core n)
      (hclosed : depthAfterAll 0 (t :: core) = 0) (hback : ∀ k ∈ back, k.isSpace = true)
      (hu : u.kind = .semicolon) (htext : u.text = [';']) (hneeds : n.needsSemicolon = true)
      (hprints : n.Prints (texts (pend ++ t :: core ++ back))) (hrest : Items g ts ns) :
      Items g (pend ++ t :: core ++ back ++ u :: ts) (n :: ns)
  | block {pend us inner tail ts : List Token} {t v : Token} {head : Head} {ms ks ns : List Node}
      {semicolon : Bool} {after : Text} (hpend : ∀ k ∈ pend, Parse.isPending k = true)
      (hhead : IsHead g t us head) (hneeds : ∀ s a ks, (head.close s a ks).needsSemicolon = false)
      (hprints : head.Prints (texts (pend ++ t :: us)))
      (hinner : Items g inner ms) (htail : Tail g false ms tail ks semicolon after)
      (hv : v.kind = .closeCurly) (htext : v.text = ['}']) (hrest : Items g ts ns) :
      Items g (pend ++ t :: us ++ (inner ++ tail ++ v :: ts)) (head.close semicolon after ks :: ns)

section

variable {g : Grammar} {top : Bool} {front tail : List Token} {ms ns : List Node} {semicolon : Bool}
  {after : Text}

/-- **What stands at the end of a block** is printed as it stands behind its nodes. -/
theorem Tail.prints (h : Tail g top ms tail ns semicolon after) {t : Text}
    (hms : ∀ depth first, Fragment.texts (({} : Printer).nodes depth first true ms) = t)
    (depth : Nat) (first : Bool) :
    Fragment.texts (({} : Printer).nodes depth first semicolon ns) ++ after = t ++ texts tail := by
  cases h with
  | blank hpend hsemicolon => rw [Printer.nodes_semicolon _ hsemicolon, hms]
  | @leaf pend core behind u n own _ _ _ _ _ _ hprints hafter =>
      rw [Printer.nodes_concat, Fragment.texts_append, hms, Token.texts_append (pend ++ u :: core),
        hafter]
      simp only [Bool.and_false, Bool.false_eq_true, if_false, List.append_nil, hprints _ _,
        List.append_assoc]

/-- **Nodes are printed as their tokens.** -/
theorem Items.prints (h : Items g front ns) (depth : Nat) (first : Bool) :
    Fragment.texts (({} : Printer).nodes depth first true ns) = texts front := by
  induction h generalizing depth first with
  | nil => rfl
  | comment _ hcomment hprints _ ih =>
      rw [Printer.nodes, Fragment.texts_append, Fragment.texts_append, ih, hprints,
        needsSemicolon_of_commentOf? hcomment]
      simp
  | leaf _ _ _ _ _ htext hneeds hprints _ ih =>
      rw [Printer.nodes, Fragment.texts_append, Fragment.texts_append, ih, hprints, hneeds]
      simp [Fragment.texts_emit, htext]
  | block _ _ hneeds hprints _ htail _ htext _ ihinner ih =>
      rw [Printer.nodes, Fragment.texts_append, Fragment.texts_append, ih, hprints, hneeds]
      have hbody := htail.prints ihinner (depth + 1) false
      rw [List.append_assoc (texts _), hbody]
      simp [htext]

end

/-! ### Reading tokens of nodes -/

namespace Parse

variable {g : Grammar} {lines : LineMap} {p q r : Parse} {ns ms : List Node} {n : Node} {t : Token}
  {pend us ts rest : List Token}

/-- Reading **adds** nodes to the innermost block, as far as nodes say something. -/
structure Adds (p q : Parse) (ns : List Node) : Prop where
  blocks : q.blocks = p.blocks
  nodes : q.body.nodes.map Node.bare = (ns.map Node.bare).reverse ++ p.body.nodes.map Node.bare

/-- Reading nothing adds no nodes. -/
theorem Adds.refl (p : Parse) : p.Adds p [] :=
  ⟨rfl, rfl⟩

/-- Nodes that are added in two turns are added one after the other. -/
theorem Adds.trans (h : p.Adds q ns) (h' : q.Adds r ms) : p.Adds r (ns ++ ms) where
  blocks := h'.blocks.trans h.blocks
  nodes := by rw [h'.nodes, h.nodes]; simp

/-- What is neither blank nor a semicolon nor a closing brace is read as a statement. -/
theorem step_statement (hpending : t.kind ≠ .space ∧ t.kind ≠ .semicolon)
    (hclose : t.kind ≠ .closeCurly) :
    p.step g lines t ts =
      (readStatement g lines p.body.pending t ts).map fun r => (p.accept r.statement, r.rest) := by
  rw [step]
  split <;> simp_all

/-- Blanks and stray semicolons are skipped. -/
theorem exists_run_pending (hpend : ∀ k ∈ pend, isPending k = true) (g : Grammar) (lines : LineMap)
    (p : Parse) (ts : List Token) :
    ∃ q, p.run g lines (pend ++ ts) = Parse.run g lines q ts ∧ p.Adds q [] :=
  ⟨_, run_pending hpend g lines p ts, rfl, rfl⟩

/-- A whole statement is read as one more node. -/
theorem exists_run_whole (hpend : ∀ k ∈ pend, isPending k = true)
    (hpending : t.kind ≠ .space ∧ t.kind ≠ .semicolon) (hclose : t.kind ≠ .closeCurly)
    (hread : ∀ before, ∃ m terminated, readStatement g lines before t us =
      .ok ⟨.whole m terminated, rest⟩ ∧ m.bare = n.bare) (p : Parse) :
    ∃ q, p.run g lines (pend ++ t :: us) = Parse.run g lines q rest ∧ p.Adds q [n] := by
  obtain ⟨m, terminated, hm, hbare⟩ := hread (p.body.pending ++ texts pend)
  refine ⟨p.push m terminated, ?_, rfl, by simp [push, hbare]⟩
  rw [run_pending hpend, run_cons, step_statement hpending hclose]
  simp only [hm, Except.map, Except.bind, accept]
  rfl

/-- A comment is read as what it says. -/
theorem exists_run_comment (hpend : ∀ k ∈ pend, isPending k = true)
    (hcomment : commentOf? g t = some n.bare) (lines : LineMap) (p : Parse) (ts : List Token) :
    ∃ q, p.run g lines (pend ++ t :: ts) = Parse.run g lines q ts ∧ p.Adds q [n] := by
  obtain ⟨hpending, hclose⟩ := kind_of_commentOf? hcomment
  refine exists_run_whole hpend hpending hclose (fun before => ?_) p
  obtain ⟨m, hm⟩ := readStatement_comment hcomment lines before ts
  exact ⟨m, false, hm⟩

/-- A leaf with its semicolon is read as what it says. -/
theorem exists_run_leaf {core back : List Token} {u : Token}
    (hpend : ∀ k ∈ pend, isPending k = true) (hleaf : Leaf g t core n)
    (hclosed : depthAfterAll 0 (t :: core) = 0) (hback : ∀ k ∈ back, k.isSpace = true)
    (hu : u.kind = .semicolon) (lines : LineMap) (p : Parse) (ts : List Token) :
    ∃ q, p.run g lines (pend ++ t :: (core ++ back ++ u :: ts)) = Parse.run g lines q ts ∧
      p.Adds q [n] := by
  refine exists_run_whole hpend hleaf.begins.notPending hleaf.begins.notClose (fun before => ?_) p
  obtain ⟨m, hm⟩ := hleaf.readStatement_semicolon hclosed hback hu lines before ts
  exact ⟨m, true, hm⟩

end Parse

/-- A block that is closed says what its head and its nodes say. -/
theorem OpenBlock.bare_close {b : OpenBlock} {head : Head} {body : Body} {ks : List Node}
    (hhead : b.head.bare = head.bare)
    (hnodes : body.nodes.map Node.bare = (ks.map Node.bare).reverse)
    (lines : LineMap) (stop : Nat) (semicolon : Bool) (after : Text) :
    (b.close lines body stop).bare = (head.close semicolon after ks).bare := by
  obtain ⟨h, start, brace, siblings⟩ := b
  have hks : body.nodes.reverse.map Node.bare = ks.map Node.bare := by simp [hnodes]
  cases h <;> cases head <;>
    simp_all [OpenBlock.close, Head.bare, Head.close, Node.bare, Node.bareAll_eq_map]

section

variable {g : Grammar} {top : Bool} {front tail ts : List Token} {ms ns : List Node}
  {semicolon : Bool} {after : Text} {p q : Parse}

/-- Among blanks and stray semicolons there is a first semicolon, or there are blanks only. -/
theorem spaces_or_semicolon {ks : List Token} (h : ∀ k ∈ ks, Parse.isPending k = true) :
    (∀ k ∈ ks, k.isSpace = true) ∨
      ∃ gap u rest, ks = gap ++ u :: rest ∧ (∀ k ∈ gap, k.isSpace = true) ∧ u.kind = .semicolon ∧
        ∀ k ∈ rest, Parse.isPending k = true := by
  induction ks with
  | nil => simp
  | cons k ks ih =>
      obtain ⟨hk, hks⟩ := List.forall_mem_cons.1 h
      rcases Parse.kind_of_isPending hk with hk | hk
      · have hspace : k.isSpace = true := by simp [Token.isSpace, hk]
        rcases ih hks with hall | ⟨gap, u, rest, rfl, hgap, hu, hrest⟩
        · exact Or.inl (List.forall_mem_cons.2 ⟨hspace, hall⟩)
        · exact Or.inr ⟨k :: gap, u, rest, rfl, List.forall_mem_cons.2 ⟨hspace, hgap⟩, hu, hrest⟩
      · exact Or.inr ⟨[], k, ks, rfl, by simp, hk, hks⟩

/-- **What stands at the end of a block** is read as what its nodes say. -/
theorem Tail.run_eq (h : Tail g top ms tail ns semicolon after)
    (hts : ∀ k ∈ ts.head?, top = false ∧ k.kind = .closeCurly) (hms : p.Adds q ms)
    (lines : LineMap) :
    ∃ r, q.run g lines (tail ++ ts) = r.run g lines ts ∧ p.Adds r ns := by
  cases h with
  | blank hpend hsemicolon =>
      obtain ⟨r, hr, hadds⟩ := Parse.exists_run_pending hpend g lines q ts
      exact ⟨r, hr, by simpa using hms.trans hadds⟩
  | @leaf pend core behind t n own _ hpend hleaf hbehind hmixin hclosed hprints hafter =>
      rcases spaces_or_semicolon hbehind with hspaces | ⟨gap, u, rest, rfl, hgap, hu, hrest⟩
      · have hplain : n.isMixin = false := by
          refine hmixin.resolve_right ?_
          rintro ⟨k, hk, hkind⟩
          simpa [Token.isSpace, hkind] using hspaces k hk
        have hend : ∀ k ∈ ts.head?, depthAfterAll 0 (t :: core) = 0 ∧ k.kind = .closeCurly := by
          intro k hk
          obtain ⟨htop, hkind⟩ := hts k hk
          exact ⟨hclosed.resolve_left fun h => by simp [htop] at h, hkind⟩
        have hread : ∀ before, ∃ m terminated,
            readStatement g lines before t (core ++ behind ++ ts) =
              .ok ⟨.whole m terminated, behind ++ ts⟩ ∧ m.bare = n.bare := by
          intro before
          obtain ⟨m, hm⟩ := hleaf.readStatement_outside hplain hspaces hend lines before
          exact ⟨m, false, hm⟩
        obtain ⟨r, hr, hadds⟩ :=
          Parse.exists_run_whole hpend hleaf.begins.notPending hleaf.begins.notClose hread q
        obtain ⟨r', hr', hadds'⟩ := Parse.exists_run_pending hbehind g lines r ts
        refine ⟨r', ?_, by simpa using (hms.trans hadds).trans hadds'⟩
        rw [← hr', ← hr]
        simp
      · have hdepth : depthAfterAll 0 (t :: core) = 0 := by
          refine hclosed.resolve_left ?_
          rintro ⟨-, hall⟩
          simpa [Token.isSpace, hu] using hall u (by simp)
        obtain ⟨r, hr, hadds⟩ :=
          Parse.exists_run_leaf hpend hleaf hdepth hgap hu lines q (rest ++ ts)
        obtain ⟨r', hr', hadds'⟩ := Parse.exists_run_pending hrest g lines r ts
        refine ⟨r', ?_, by simpa using (hms.trans hadds).trans hadds'⟩
        rw [← hr', ← hr]
        simp

/-- **The tokens of nodes** are read as what these say. -/
theorem Items.run_eq (h : Items g front ns) (lines : LineMap) (p : Parse) (ts : List Token) :
    ∃ q, p.run g lines (front ++ ts) = q.run g lines ts ∧ p.Adds q ns := by
  induction h generalizing p ts with
  | nil => exact ⟨p, rfl, .refl p⟩
  | @comment pend us t n ns hpend hcomment hprints hrest ih =>
      obtain ⟨q, hq, hadds⟩ := Parse.exists_run_comment hpend hcomment lines p (us ++ ts)
      obtain ⟨r, hr, hadds'⟩ := ih q ts
      refine ⟨r, ?_, hadds.trans hadds'⟩
      rw [← hr, ← hq]
      simp
  | @leaf pend core back us t u n ns hpend hleaf hclosed hback hu htext hneeds hprints hrest ih =>
      obtain ⟨q, hq, hadds⟩ :=
        Parse.exists_run_leaf hpend hleaf hclosed hback hu lines p (us ++ ts)
      obtain ⟨r, hr, hadds'⟩ := ih q ts
      refine ⟨r, ?_, hadds.trans hadds'⟩
      rw [← hr, ← hq]
      simp
  | @block pend us inner tail ws t v head ms ks ns semicolon after hpend hhead hneeds hprints hinner
      htail hv htext hrest ihinner ih =>
      obtain ⟨head', start, brace, hread, hbare⟩ := hhead.readStatement_eq lines
        (p.body.pending ++ texts pend) (inner ++ tail ++ v :: ws ++ ts)
      -- The head opens the block, the nodes in it are read, and its brace closes it.
      obtain ⟨q, hq, hadds⟩ := ihinner
        { body := {}, blocks := ⟨head', start, brace, p.body.nodes⟩ :: p.blocks }
        (tail ++ (v :: (ws ++ ts)))
      have hend : ∀ k ∈ (v :: (ws ++ ts)).head?, false = false ∧ k.kind = .closeCurly := by
        simpa using hv
      obtain ⟨r, hr, hblocks, hnodes⟩ := htail.run_eq hend hadds lines
      have hstep : r.step g lines v (ws ++ ts) =
          .ok (Parse.push (OpenBlock.close ⟨head', start, brace, p.body.nodes⟩ lines r.body v.stop)
            false { body := { nodes := p.body.nodes }, blocks := p.blocks }, ws ++ ts) := by
        simp [Parse.step, hv, hblocks]
      have hclose := OpenBlock.bare_close (b := ⟨head', start, brace, p.body.nodes⟩) hbare
        (hnodes.trans (List.append_nil _)) lines v.stop semicolon after
      have hblock : p.Adds (Parse.push
          (OpenBlock.close ⟨head', start, brace, p.body.nodes⟩ lines r.body v.stop) false
          { body := { nodes := p.body.nodes }, blocks := p.blocks })
          [head.close semicolon after ks] :=
        ⟨rfl, by simp [Parse.push, hclose]⟩
      obtain ⟨r', hr', hadds'⟩ := ih _ ts
      refine ⟨r', ?_, hblock.trans hadds'⟩
      rw [← hr']
      simp only [List.append_assoc, List.cons_append] at hread hq ⊢
      rw [Parse.run_pending hpend, Parse.run_cons,
        Parse.step_statement hhead.begins.notPending hhead.begins.notClose, hread]
      simp only [Except.map, Except.bind, Parse.accept]
      rw [hq, hr, Parse.run_cons, hstep]
      rfl

/-! ### Putting nodes together -/

/-- Nodes can be put behind nodes. -/
theorem Items.append (h : Items g front ms) (h' : Items g ts ns) :
    Items g (front ++ ts) (ms ++ ns) := by
  induction h with
  | nil => exact h'
  | comment hpend hcomment hprints _ ih => simpa using Items.comment hpend hcomment hprints ih
  | leaf hpend hleaf hclosed hback hu htext hneeds hprints _ ih =>
      simpa using Items.leaf hpend hleaf hclosed hback hu htext hneeds hprints ih
  | block hpend hhead hneeds hprints hinner htail hv htext _ _ ih =>
      simpa using Items.block hpend hhead hneeds hprints hinner htail hv htext ih

/-- Nodes can be told apart from the nodes in front of them. -/
theorem Items.split (h : Items g ts (ms ++ ns)) :
    ∃ us vs, ts = us ++ vs ∧ Items g us ms ∧ Items g vs ns := by
  induction ms generalizing ts with
  | nil => exact ⟨[], ts, rfl, .nil, h⟩
  | cons m ms ih =>
      rw [List.cons_append] at h
      cases h with
      | comment hpend hcomment hprints hrest =>
          obtain ⟨us, vs, rfl, hus, hvs⟩ := ih hrest
          exact ⟨_, vs, by simp, .comment hpend hcomment hprints hus, hvs⟩
      | leaf hpend hleaf hclosed hback hu htext hneeds hprints hrest =>
          obtain ⟨us, vs, rfl, hus, hvs⟩ := ih hrest
          exact ⟨_, vs, by simp, .leaf hpend hleaf hclosed hback hu htext hneeds hprints hus, hvs⟩
      | block hpend hhead hneeds hprints hinner htail hv htext hrest =>
          obtain ⟨us, vs, rfl, hus, hvs⟩ := ih hrest
          exact ⟨_, vs, by simp,
            .block hpend hhead hneeds hprints hinner htail hv htext hus, hvs⟩

/-- Leaves have no nodes below them. -/
theorem Leaf.children_eq_nil {t : Token} {core : List Token} {n : Node} (h : Leaf g t core n) :
    n.children = [] := by
  have hnil : ∀ k ∈ ([] : List Token), k.isSpace = true := by simp
  rcases h.cases hnil with ⟨-, hn⟩ | ⟨-, _, _, _, -, -, hn⟩ | ⟨-, -, -, -, hn⟩ <;>
    cases n <;> simp_all [Node.bare, Node.bareAll_eq_map, Node.children]

/-- What stands behind some nodes can stand behind others, unless the semicolon that the last of
these needs is missing. It is one more node at most, and no block. -/
theorem Tail.behind (h : Tail g top ms tail ns semicolon after) :
    ∃ own, ns = ms ++ own ∧ own.length ≤ 1 ∧ (∀ n ∈ own, n.children = []) ∧
      ∀ ms', (own = [] → ∀ n ∈ ms'.getLast?, n.needsSemicolon = true →
          n ∈ ms.getLast? ∨ semicolon = true) →
        Tail g top ms' tail (ms' ++ own) semicolon after := by
  cases h with
  | blank hpend hsemicolon =>
      refine ⟨[], by simp, by simp, by simp, fun ms' hms' => ?_⟩
      rw [List.append_nil]
      exact .blank hpend fun n hn hneeds =>
        (hms' rfl n hn hneeds).elim (hsemicolon n · hneeds) id
  | leaf hpend hleaf hbehind hmixin hclosed hprints hafter =>
      exact ⟨[_], rfl, by simp, by simpa using hleaf.children_eq_nil,
        fun ms' _ => .leaf hpend hleaf hbehind hmixin hclosed hprints hafter⟩

/-- The tokens inside a block, or of a style sheet, with its nodes and its raws. -/
def Interior (g : Grammar) (top : Bool) (ts : List Token) (ns : List Node) (semicolon : Bool)
    (after : Text) : Prop :=
  ∃ front tail ms, ts = front ++ tail ∧ Items g front ms ∧ Tail g top ms tail ns semicolon after

/-- Nodes can be put in front of what is inside a block. -/
theorem Items.append_interior (h : Items g front ms) (h' : Interior g top ts ns semicolon after)
    (hlast : ns = [] → ∀ n ∈ ms.getLast?, n.needsSemicolon = true → semicolon = true) :
    Interior g top (front ++ ts) (ms ++ ns) semicolon after := by
  obtain ⟨front', tail, ms', rfl, hitems, htail⟩ := h'
  obtain ⟨own, rfl, -, -, hbehind⟩ := htail.behind
  refine ⟨front ++ front', tail, ms ++ ms', by simp, h.append hitems, ?_⟩
  rw [← List.append_assoc]
  refine hbehind _ fun hown n hn hneeds => ?_
  cases ms' with
  | nil => exact Or.inr (hlast (by simp [hown]) n (by simpa using hn) hneeds)
  | cons m ms' => exact Or.inl (by simpa [List.getLast?_append] using hn)

/-- **The inside of a block** is printed as its tokens. -/
theorem Interior.prints (h : Interior g top ts ns semicolon after) (depth : Nat) (first : Bool) :
    Fragment.texts (({} : Printer).nodes depth first semicolon ns) ++ after = texts ts := by
  obtain ⟨front, tail, ms, rfl, hitems, htail⟩ := h
  rw [htail.prints hitems.prints, Token.texts_append]

/-- **The inside of a block** is read as what its nodes say. -/
theorem Interior.run_eq (h : Interior g top ts ns semicolon after) {rest : List Token}
    (hrest : ∀ k ∈ rest.head?, top = false ∧ k.kind = .closeCurly) (lines : LineMap) (p : Parse) :
    ∃ q, p.run g lines (ts ++ rest) = q.run g lines rest ∧ p.Adds q ns := by
  obtain ⟨front, tail, ms, rfl, hitems, htail⟩ := h
  obtain ⟨q, hq, hadds⟩ := hitems.run_eq lines p (tail ++ rest)
  obtain ⟨r, hr, hadds'⟩ := htail.run_eq hrest hadds lines
  exact ⟨r, by rw [List.append_assoc, hq, hr], hadds'⟩

end

/-! ### What has been read -/

/-- The head of a block with the place of the block. -/
def Head.placed (source : Option Range) : Head → Head
  | .rule h => .rule { h with source := source }
  | .atRule h => .atRule { h with source := source }

/-- A block is closed as the node of its head, which goes from the start of the block to its end. -/
theorem OpenBlock.close_eq (b : OpenBlock) (lines : LineMap) (body : Body) (stop : Nat) :
    b.close lines body stop =
      (b.head.placed (some (lines.range ⟨b.start, stop⟩))).close body.semicolon body.pending
        body.nodes.reverse := by
  obtain ⟨head, start, brace, siblings⟩ := b
  cases head <;> rfl

/-- Places do not matter to the head of a block. -/
theorem IsHead.placed {g : Grammar} {t : Token} {us : List Token} {head : Head}
    (h : IsHead g t us head) (source : Option Range) : IsHead g t us (head.placed source) where
  begins := h.begins
  endsOpen := h.endsOpen
  readStatement_eq lines before rest := by
    obtain ⟨head', start, brace, hread, hbare⟩ := h.readStatement_eq lines before rest
    refine ⟨head', start, brace, hread, hbare.trans ?_⟩
    cases head <;> rfl

/-- Places are not printed. -/
theorem Head.Prints.placed {head : Head} {t : Text} (h : head.Prints t) (source : Option Range) :
    (head.placed source).Prints t := by
  cases head with
  | rule head => exact h
  | atRule head => exact h

section

variable {g : Grammar} {lines : LineMap} {before : Text} {t : Token} {pend ts rest : List Token}
  {n : Node} {head : Head} {terminated : Bool} {start brace : Nat} {b : Body}

/-- What is read as a node ends by itself, or is a leaf at the end of its block. -/
theorem items_or_leaf_of_readStatement (hform : ∀ k ∈ t :: ts, k.HasForm)
    (hpend : ∀ k ∈ pend, Parse.isPending k = true)
    (hpending : t.kind ≠ .space ∧ t.kind ≠ .semicolon) (hclose : t.kind ≠ .closeCurly)
    (h : readStatement g lines (texts pend) t ts = .ok ⟨.whole n terminated, rest⟩) :
    (∃ used, t :: ts = used ++ rest ∧ Items g (pend ++ used) [n] ∧
      (n.needsSemicolon = true → terminated = true)) ∨
    (terminated = false ∧ n.isMixin = false ∧ ∃ core back following, ts = core ++ rest ∧
      rest = back ++ following ∧ Leaf g t core n ∧ (∀ k ∈ back, k.isSpace = true) ∧
      n.Prints (texts (pend ++ t :: core)) ∧
      ∀ k ∈ following.head?, depthAfterAll 0 (t :: core) = 0 ∧ k.kind = .closeCurly) := by
  obtain ⟨used, hprints, hused⟩ :=
    (reads_of_readStatement (hform t List.mem_cons_self) h).prints
  rw [← Token.texts_append] at hprints
  rcases begins_or_comment (g := g) hpending hclose with hbegins | ⟨b, hb, hbare⟩
  · obtain ⟨core, back, hleaf, hback, hcase⟩ := exists_leaf_of_readStatement hbegins h
    rcases hcase with ⟨u, hu, rfl, hdepth, rfl⟩ | ⟨hmixin, rfl, following, rfl, hts, hend⟩
    · obtain ⟨-, hneeds, u', hu', heq⟩ := hused.resolve_right (by simp)
      have hcut : used ++ u' :: rest = t :: core ++ back ++ u :: rest := by rw [← heq]; simp
      obtain ⟨rfl, hutl⟩ := List.append_inj' hcut rfl
      obtain ⟨rfl, -⟩ := List.cons.inj hutl
      have htext := (hform u' (by simp)).text_semicolon hu'
      refine Or.inl ⟨t :: core ++ back ++ [u'], by simp, ?_, fun _ => rfl⟩
      have hitems := Items.leaf hpend hleaf hdepth hback hu' htext hneeds (by simpa using hprints)
        Items.nil
      simpa using hitems
    · obtain ⟨-, heq⟩ := hused.resolve_left (by simp)
      have hcut : used ++ (back ++ following) = t :: core ++ (back ++ following) := by
        rw [← heq, hts]
        simp
      obtain rfl := List.append_cancel_right hcut
      exact Or.inr ⟨rfl, hmixin, core, back, following, by simpa using hts, rfl, hleaf, hback,
        hprints, hend⟩
  · obtain ⟨m, hm, hmbare⟩ := readStatement_comment (n := b) (hbare.symm ▸ hb) lines (texts pend) ts
    obtain ⟨⟨rfl, rfl⟩, rfl⟩ : (n = m ∧ terminated = false) ∧ rest = ts := by
      simpa using h.symm.trans hm
    obtain ⟨-, heq⟩ := hused.resolve_left (by simp)
    obtain rfl : [t] = used := List.append_cancel_right (show [t] ++ rest = used ++ rest from heq)
    have hcomment : commentOf? g t = some n.bare := by rw [hmbare, hbare, hb]
    refine Or.inl ⟨[t], rfl, .comment hpend hcomment hprints .nil, fun hneeds => ?_⟩
    simp [needsSemicolon_of_commentOf? hcomment] at hneeds

/-- What is read as the head of a block is one, and is printed as its tokens. -/
theorem isHead_of_readStatement (hform : ∀ k ∈ t :: ts, k.HasForm)
    (hpending : t.kind ≠ .space ∧ t.kind ≠ .semicolon) (hclose : t.kind ≠ .closeCurly)
    (h : readStatement g lines (texts pend) t ts = .ok ⟨.opening head start brace, rest⟩) :
    ∃ us, ts = us ++ rest ∧ IsHead g t us head ∧ head.Prints (texts (pend ++ t :: us)) ∧
      ∀ semicolon after ns, (head.close semicolon after ns).needsSemicolon = false := by
  have hbegins : t.Begins g := by
    refine (begins_or_comment hpending hclose).resolve_right ?_
    rintro ⟨b, hb, hbare⟩
    obtain ⟨m, hm, -⟩ := readStatement_comment (n := b) (hbare.symm ▸ hb) lines (texts pend) ts
    simp [hm] at h
  obtain ⟨us, rfl, hhead⟩ := exists_isHead_of_readStatement hbegins h
  obtain ⟨used, hprints, hused, hneeds⟩ :=
    (reads_of_readStatement (hform t List.mem_cons_self) h).headPrints hform
  obtain rfl : t :: us = used := List.append_cancel_right (by simpa using hused)
  exact ⟨us, rfl, hhead, by simpa using hprints, hneeds⟩

end

namespace Parse

/-- The tokens `pend`, which have been skipped, and `ts` are **told apart**: up to the end of the
innermost block they are the tokens inside it, or what is left of these, and reading goes on with
the nodes that they are. -/
def Told (g : Grammar) (lines : LineMap) (p : Parse) (pend ts : List Token) (b : Body) : Prop :=
  ∃ inner rest new semicolon after, pend ++ ts = inner ++ rest ∧ rest.length ≤ ts.length ∧
    Interior g p.blocks.isEmpty inner new semicolon after ∧
    (new = [] → semicolon = p.body.semicolon) ∧ (∀ k ∈ rest.head?, k.kind = .closeCurly) ∧
    Parse.run g lines { p with body :=
      { nodes := new.reverse ++ p.body.nodes, pending := after, semicolon := semicolon } } rest =
        .ok b

variable {g : Grammar} {lines : LineMap} {p : Parse} {pend used us ts ws : List Token} {t : Token}
  {b : Body} {n : Node} {terminated : Bool} {head : Head} {start brace : Nat}

/-- At the end of a block there is nothing but what has been skipped. -/
theorem Told.stop (hpend : ∀ k ∈ pend, isPending k = true) (hp : p.body.pending = texts pend)
    (hts : ∀ k ∈ ts.head?, k.kind = .closeCurly) (h : p.run g lines ts = .ok b) :
    Told g lines p pend ts b := by
  have hblank := @Tail.blank g p.blocks.isEmpty [] pend p.body.semicolon hpend (by simp)
  refine ⟨pend, ts, [], p.body.semicolon, texts pend, rfl, le_rfl,
    ⟨[], pend, [], rfl, .nil, hblank⟩, fun _ => rfl, hts, ?_⟩
  rw [← hp]
  exact h

/-- What has been skipped is one more token. -/
theorem Told.skip {pending : Text}
    (h : Told g lines { p with body := { p.body with pending := pending } } (pend ++ [t]) ts b) :
    Told g lines p pend (t :: ts) b := by
  obtain ⟨inner, rest, new, semicolon, after, hall, hlength, hinner, hsemicolon, hrest, hb⟩ := h
  exact ⟨inner, rest, new, semicolon, after, by simpa using hall, Nat.le_succ_of_le hlength, hinner,
    hsemicolon, hrest, hb⟩

/-- One more node has been read that ends by itself. -/
theorem Told.push (hitem : Items g (pend ++ used) [n])
    (hneeds : n.needsSemicolon = true → terminated = true)
    (h : Told g lines (p.push n terminated) [] us b) : Told g lines p pend (used ++ us) b := by
  obtain ⟨inner, rest, new, semicolon, after, hall, hlength, hinner, hsemicolon, hrest, hb⟩ := h
  obtain rfl : us = inner ++ rest := hall
  refine ⟨pend ++ used ++ inner, rest, n :: new, semicolon, after, by simp,
    by simp only [List.length_append]; omega, hitem.append_interior hinner fun hnew m hm hm' => ?_,
    by simp, hrest, ?_⟩
  · obtain rfl : n = m := by simpa using hm
    rw [hsemicolon hnew]
    exact hneeds hm'
  · simpa [Parse.push] using hb

/-- A leaf has been read at the end of its block. -/
theorem Told.leaf {core back following : List Token} (hpend : ∀ k ∈ pend, isPending k = true)
    (hleaf : Leaf g t core n) (hmixin : n.isMixin = false) (hback : ∀ k ∈ back, k.isSpace = true)
    (hprints : n.Prints (texts (pend ++ t :: core)))
    (hend : ∀ k ∈ following.head?, depthAfterAll 0 (t :: core) = 0 ∧ k.kind = .closeCurly)
    (h : (p.push n false).run g lines (back ++ following) = .ok b) :
    Told g lines p pend (t :: core ++ back ++ following) b := by
  have hbehind : ∀ k ∈ back, isPending k = true := fun k hk => isPending_of_isSpace (hback k hk)
  rw [run_pending hbehind] at h
  have hclosed : (p.blocks.isEmpty = true ∧ ∀ k ∈ back, k.isSpace = true) ∨
      depthAfterAll 0 (t :: core) = 0 := by
    cases following with
    | nil =>
        refine Or.inl ⟨?_, hback⟩
        cases hblocks : p.blocks with
        | nil => rfl
        | cons o os => simp [run, Parse.push, hblocks] at h
    | cons v vs => exact Or.inr (hend v rfl).1
  have htail : Tail g p.blocks.isEmpty [] (pend ++ t :: core ++ back) [n] false (texts back) :=
    .leaf hpend hleaf hbehind (Or.inl hmixin) hclosed (by simpa using hprints)
      (show texts back = [] ++ texts back from rfl)
  refine ⟨pend ++ t :: core ++ back, following, [n], false, texts back, by simp,
    by simp only [List.length_append]; omega, ⟨[], _, [], rfl, .nil, htail⟩, by simp,
    fun k hk => (hend k hk).2, ?_⟩
  simpa [Parse.push] using h

/-- The block that a head begins has been read. -/
theorem Told.block (hform : ∀ k ∈ us, k.HasForm) (hpend : ∀ k ∈ pend, isPending k = true)
    (hhead : IsHead g t ws head) (hprints : head.Prints (texts (pend ++ t :: ws)))
    (hneeds : ∀ s a ks, (head.close s a ks).needsSemicolon = false)
    (h : Told g lines (p.accept (.opening head start brace)) [] us b) :
    ∃ inner rest n, us = inner ++ rest ∧ n.needsSemicolon = false ∧
      Items g (pend ++ (t :: ws ++ inner)) [n] ∧ (p.push n false).run g lines rest = .ok b := by
  obtain ⟨_, rest, ks, semicolon, after, hall, -, ⟨front, tail, ms, rfl, hitems, htail⟩, -, hrest,
    hb⟩ := h
  obtain rfl : us = front ++ tail ++ rest := hall
  cases rest with
  | nil => simp [run, accept] at hb
  | cons v rest =>
      have hv : v.kind = .closeCurly := hrest v rfl
      have htext := (hform v (by simp)).text_closeCurly hv
      have hplaced : ∀ source s a ks,
          ((head.placed source).close s a ks).needsSemicolon = false := by
        intro source s a ks
        have := hneeds s a ks
        cases head <;> exact this
      have hblock := Items.block hpend (hhead.placed (some (lines.range ⟨start, v.stop⟩)))
        (hplaced _) (hprints.placed _) hitems htail hv htext .nil
      refine ⟨front ++ tail ++ [v], rest, _, by simp, hplaced _ _ _ _, by simpa using hblock, ?_⟩
      rw [run_cons] at hb
      simpa [step, hv, accept, Except.bind, OpenBlock.close_eq, Parse.push] using hb

/-- **What has been read has the tokens of nodes.** -/
theorem told_of_run (hform : ∀ k ∈ ts, k.HasForm) (hpend : ∀ k ∈ pend, isPending k = true)
    (hp : p.body.pending = texts pend) (h : p.run g lines ts = .ok b) :
    Told g lines p pend ts b := by
  induction hn : ts.length using Nat.strong_induction_on generalizing p pend ts with
  | _ size ih =>
  subst hn
  have hnil : ∀ k ∈ ([] : List Token), isPending k = true := by simp
  cases ts with
  | nil => exact .stop hpend hp (by simp) h
  | cons t ts =>
      have hforms : ∀ k ∈ ts, k.HasForm := fun k hk => hform k (List.mem_cons_of_mem _ hk)
      by_cases hclose : t.kind = .closeCurly
      · exact .stop hpend hp (by simpa using hclose) h
      by_cases hpending : isPending t = true
      · have hpend' : ∀ k ∈ pend ++ [t], isPending k = true := by
          intro k hk
          rcases List.mem_append.1 hk with hk | hk
          · exact hpend k hk
          · rwa [List.mem_singleton.1 hk]
        have hone : ∀ k ∈ [t], isPending k = true := by simpa using hpending
        have hrun := run_pending hone g lines p ts
        rw [List.singleton_append, h] at hrun
        exact .skip (ih ts.length (by simp) hforms hpend' (by simp [hp]) hrun.symm rfl)
      have hpending : t.kind ≠ .space ∧ t.kind ≠ .semicolon := by
        simpa [isPending, not_or] using hpending
      rw [run_cons, step_statement hpending hclose, hp] at h
      cases hr : readStatement g lines (texts pend) t ts with
      | error e => simp [hr, Except.map, Except.bind] at h
      | ok r =>
          obtain ⟨statement, us⟩ := r
          have hus : us.length ≤ ts.length := length_rest_readStatement_le hr
          simp only [hr, Except.map, Except.bind] at h
          cases statement with
          | whole n terminated =>
              rcases items_or_leaf_of_readStatement hform hpend hpending hclose hr with
                ⟨used, hused, hitem, hneeds⟩ |
                ⟨rfl, hmixin, core, back, following, rfl, rfl, hleaf, hback, hprints, hend⟩
              · have hlt : us.length < (t :: ts).length := by
                  rw [List.length_cons]
                  omega
                have hforms' : ∀ k ∈ us, k.HasForm := fun k hk => hform k (by rw [hused]; simp [hk])
                rw [hused]
                exact .push hitem hneeds (ih us.length hlt hforms' hnil rfl h rfl)
              · simpa using Told.leaf hpend hleaf hmixin hback hprints hend h
          | opening head start brace =>
              obtain ⟨ws, rfl, hhead, hprints, hneeds⟩ :=
                isHead_of_readStatement hform hpending hclose hr
              have hforms' : ∀ k ∈ us, k.HasForm := fun k hk => hforms k (by simp [hk])
              have hlt : us.length < (t :: (ws ++ us)).length := by
                rw [List.length_cons, List.length_append]
                omega
              have htold := ih us.length hlt hforms' hnil rfl h rfl
              obtain ⟨inner, rest, n, rfl, hn, hitem, hrun⟩ :=
                htold.block hforms' hpend hhead hprints hneeds
              have hlt' : rest.length < (t :: (ws ++ (inner ++ rest))).length := by
                rw [List.length_append] at hlt
                omega
              have hforms'' : ∀ k ∈ rest, k.HasForm := fun k hk => hforms' k (by simp [hk])
              have hrest := ih rest.length hlt' hforms'' hnil rfl hrun rfl
              simpa using hrest.push hitem (by simp [hn])

end Parse

end StyleBlocks.Sheet
