import StyleBlocks.Proofs.Block.HoleToken
import StyleBlocks.Proofs.Block.Hosting
import StyleBlocks.Proofs.Document.Emission
import StyleBlocks.Proofs.Sheet.Unplaced

/-!
# Holes in comments

The placeholder of a hole is a comment, and comments do not nest. So a comment that a hole stands in
ends with the placeholder of its first hole, and what is written behind that hole is style text again,
the rest of the comment included. The comment in front decides nothing about it: a style sheet that
begins with a comment is that comment and the style sheet behind it.

## Main results

* `parseUnplaced_comment_append`: a comment in front of a style sheet is one more node.
* `Assembly.parse_commentedHole`: a comment ends with its first hole, and the rest is read by itself.
-/

namespace StyleBlocks

open Placeholder (create mark)
open Sheet Template

namespace Sheet

/-- The comment node for the text between the marks, behind blanks. -/
def commentNode (before inner : Text) : Node :=
  .comment { text := inner, before := some before }

section

variable {g : Grammar} {lines : LineMap} {offset : Nat} {blank inner t : Text}

/-- Blanks in front of a text are a token, if there are any. -/
theorem Token.tokenizeFrom_blank_append (hblank : ∀ c ∈ blank, isStyleBlank c = true)
    (ht : ∀ c ∈ t.head?, isStyleBlank c = false) :
    tokenizeFrom lines offset (blank ++ t) =
      (tokenizeFrom lines (offset + Text.byteSize blank) t).map
        ((if blank = [] then [] else [⟨.space, blank, offset⟩]) ++ ·) := by
  by_cases hne : blank = []
  · subst hne
    change _ = Except.map id (tokenizeFrom lines offset t)
    rw [Except.map_id]
    rfl
  · rw [if_neg hne]
    exact tokenizeFrom_shape_append (.space hne hblank) ht

/-- A comment at the start is a node in front of all that follows. -/
theorem Parse.run_comment (g : Grammar) (lines : LineMap) (blank : Text) (offset : Nat) (k : Token)
    (hk : k.kind = .comment) (htext : k.text = '/' :: '*' :: (inner ++ ['*', '/']))
    (vs : List Token) :
    unplacedWith Body.unplaced (Parse.run g lines {}
        ((if blank = [] then [] else [⟨.space, blank, offset⟩]) ++ k :: vs)) =
      unplacedWith Body.unplaced ((Parse.run g lines {} vs).map fun b =>
        { b with nodes := b.nodes ++ [commentNode blank inner] }) := by
  have hread : ∀ before, readStatement g lines before k vs =
      .ok (readComment lines before false 2 k vs) := fun before => by simp [readStatement, hk]
  have hpush : ∀ before, Parse.unplaced
      (Parse.accept (readComment lines before false 2 k vs).statement { body := { pending := before } })
        = (Parse.onto [commentNode before inner] {}).unplaced := by
    intro before
    simp [readComment, Parse.accept, Parse.push, Parse.onto, Parse.unplaced, Body.unplaced,
      Node.unplacedAll, Node.unplaced, commentNode, htext]
  rw [← Parse.run_onto]
  split
  · next hblank =>
      subst hblank
      rw [List.nil_append, Parse.run_cons, Parse.step]
      simp only [hk, hread]
      exact Parse.run_congr (hpush []) rfl g lines lines
  · rw [List.singleton_append, Parse.run_cons, Parse.step]
    change unplacedWith _ (Parse.run g lines { body := { pending := blank } } (k :: vs)) = _
    rw [Parse.run_cons, Parse.step]
    simp only [hk, hread]
    exact Parse.run_congr (hpush blank) rfl g lines lines

/-- **A comment in front of a style sheet is one more node** in front of the others. -/
theorem parseUnplaced_comment_append (g : Grammar)
    (hblank : ∀ c ∈ blank, Token.isStyleBlank c = true)
    (hinner : Text.commentRun (inner ++ ['*', '/']) = some (inner ++ ['*', '/'])) (t : Text) :
    parseUnplaced g (blank ++ '/' :: '*' :: (inner ++ ['*', '/'] ++ t)) =
      (parseUnplaced g t).map (Root.cons (commentNode blank inner)) := by
  let lines : LineMap := .ofText []
  have hshape : Token.Shape .comment ('/' :: '*' :: (inner ++ ['*', '/'])) := .comment hinner
  have hcomment : Token.tokenizeFrom lines (0 + Text.byteSize blank)
      ('/' :: '*' :: (inner ++ ['*', '/']) ++ t) = _ :=
    Token.tokenizeFrom_shape_append hshape fun _ _ => trivial
  rw [parseUnplaced_eq g lines 0, Token.tokenizeFrom_blank_append hblank (by simp; decide),
    ← List.cons_append, ← List.cons_append, hcomment, map_map,
    parseUnplaced_eq g lines]
  cases Token.tokenizeFrom lines _ t with
  | error e => rfl
  | ok vs =>
      have hrun := Parse.run_comment g lines blank 0
        ⟨.comment, '/' :: '*' :: (inner ++ ['*', '/']), 0 + Text.byteSize blank⟩ rfl rfl vs
      refine (unplacedWith_map (fun _ _ hb => Body.unplaced_toRoot hb none none) hrun).trans ?_
      rw [map_map]
      cases hvs : Parse.run g lines {} vs with
      | error e => simp [Except.bind, hvs, unplacedWith, Except.map]
      | ok b =>
          simp [Except.bind, hvs, unplacedWith, Except.map, Root.cons, Root.unplaced, Body.toRoot,
            Node.unplacedAll, commentNode, Node.unplaced]

end

end Sheet

/-! ### Templates -/

/-- Up to its first star a text is part of a comment. -/
theorem Placeholder.commentRun_append_of_notMem {s : Text} (hs : '*' ∉ s) (t : Text) :
    Text.commentRun (s ++ t) = (Text.commentRun t).map (s ++ ·) := by
  induction s with
  | nil => simp
  | cons c s ih =>
      rw [List.mem_cons, not_or] at hs
      rw [List.cons_append, commentRun_cons fun hc => absurd hc.symm hs.1, ih hs.2, Option.map_map]
      rfl

/-- What stands in a comment that ends with the placeholder of a hole, up to the end of the mark. -/
def Placeholder.commentText (inner : Text) (i : Nat) : Text :=
  inner ++ '/' :: '*' :: mark ++ ':' :: Text.ofNat i

/-- A comment that a placeholder stands in ends with it. -/
theorem Placeholder.commentRun_commentText {inner : Text} (hinner : '*' ∉ inner) (i : Nat) :
    commentText inner i ++ ['*', '/'] = inner ++ create i ∧
      Text.commentRun (commentText inner i ++ ['*', '/']) =
        some (commentText inner i ++ ['*', '/']) := by
  have htext : commentText inner i ++ ['*', '/'] = inner ++ create i := by
    simp [commentText, create]
  refine ⟨htext, ?_⟩
  have hcreate := commentRun_create i []
  rw [List.append_nil] at hcreate
  rw [htext, commentRun_append_of_notMem hinner, hcreate]
  rfl

/-- A style text that begins with blanks and a comment with a placeholder in it keeps them when it is
normalized, but for their indentation. -/
theorem Normalized.exists_ofText_comment {blank inner : Text} (hblank : '/' ∉ blank)
    (hinner : '*' ∉ inner) (i : Nat) (rest : Text) (base : Nat) :
    let n := ofText (blank ++ '/' :: '*' :: (inner ++ create i ++ rest)) base
    ∃ blank' inner' rest' : Text, ∃ line,
      n.text = blank' ++ '/' :: '*' :: (inner' ++ create i ++ rest') ∧ blank' ⊆ blank ∧
      inner = Text.indentFrom n.indentations.front line inner' ∧
      rest = Text.indentFrom n.indentations.front (line + inner'.breaks) rest' := by
  intro n
  obtain ⟨d, htext, -, -, hd, -⟩ := ofText_spec
    (blank ++ '/' :: '*' :: (inner ++ create i ++ rest)) base
  have hfront : ∀ k, ∀ c ∈ n.indentations.front k, isIndent c = true := fun k c hc =>
    isIndent_of_mem_front hc
  have hslash : ∀ k, '/' ∉ n.indentations.front k := fun k hm => absurd (hfront k _ hm) (by decide)
  have hstar : ∀ k, '*' ∉ n.indentations.front k := fun k hm => absurd (hfront k _ hm) (by decide)
  have hdropped : '/' ∉ d ++ n.indentations.front 1 := by
    rintro hm
    rcases List.mem_append.1 hm with hm | hm
    · rcases hd _ hm with h | h | h <;> exact absurd h (by decide)
    · exact hslash 1 hm
  -- the first slash begins the comment
  rw [← List.append_assoc] at htext
  obtain ⟨blank', v, hv, hblank', hrest⟩ :=
    Text.exists_of_append_cons_indentFrom (by decide) hslash hdropped hblank htext
  obtain ⟨w, rfl, hw⟩ := Placeholder.exists_of_append_indentFrom (s := ['*']) (by decide) hrest
  -- the first star behind it belongs to the placeholder
  have hcut : inner ++ create i ++ rest =
      inner ++ ['/'] ++ '*' :: (mark ++ ':' :: Text.ofNat i ++ ['*', '/'] ++ rest) := by
    simp [create]
  replace hw := hcut.symm.trans hw
  obtain ⟨x, y, rfl, hx, hy⟩ := Text.exists_of_append_cons_indentFrom (p := []) (by decide) hstar
    (by simp) (by simp [hinner]) hw
  obtain ⟨inner', rfl, hinner'⟩ := Text.exists_of_concat_indentFrom (by decide) hslash hx
  have hline : '\n' ∉ mark ++ ':' :: Text.ofNat i ++ ['*', '/'] := fun hm => by
    refine Placeholder.notMem_create (c := '\n') rfl (by decide) i ?_
    have hcreate : create i = ['/', '*'] ++ (mark ++ ':' :: Text.ofNat i ++ ['*', '/']) := by
      simp [create]
    exact hcreate ▸ List.mem_append_right _ hm
  obtain ⟨rest', rfl, hrest'⟩ := Placeholder.exists_of_append_indentFrom hline hy
  refine ⟨blank', inner', rest', 1 + blank'.breaks, ?_, ?_, hinner', ?_⟩
  · rw [hv]
    simp [create]
  · exact fun c hc => hblank' ▸ List.mem_append_right _ (Text.subset_indentFrom _ hc)
  · have hbreaks : Text.breaks (inner' ++ ['/']) = inner'.breaks := by
      rw [Text.breaks_append, Text.breaks_eq_zero (t := ['/']) (by decide), Nat.add_zero]
    rwa [hbreaks] at hrest'

namespace Assembly

/-- **A comment ends with its first hole, and the rest is read by itself**, in every grammar: what
stands behind the hole is style text, whether the comment goes on there or not. -/
theorem parse_commentedHole {t : Tagged} {q r : Quasi} {qs : List Quasi}
    (hquasis : t.quasis = q :: r :: qs) {blank inner : Text}
    (hraw : q.raw = blank ++ '/' :: '*' :: inner)
    (hblank : ∀ c ∈ blank, Token.isStyleBlank c = true) (hinner : '*' ∉ inner) (source : Text) :
    ∃ blank' inner' rest : Text, ∃ line,
      let n := Normalized.ofText (Extraction.ofTemplate t source).text t.base
      styleText source t = blank' ++ '/' :: '*' :: (inner' ++ create 0 ++ rest) ∧
      inner = Text.indentFrom n.indentations.front line inner' ∧
      Extraction.joinFrom 1 (r :: qs) =
        Text.indentFrom n.indentations.front (line + inner'.breaks) rest ∧
      ∀ g, parseUnplaced g (styleText source t) =
        (parseUnplaced g rest).map (Root.cons
          (commentNode blank' (Placeholder.commentText inner' 0))) := by
  have htext : (Extraction.ofTemplate t source).text =
      blank ++ '/' :: '*' :: (inner ++ create 0 ++ Extraction.joinFrom 1 (r :: qs)) := by
    simp [Extraction.ofTemplate, hquasis, Extraction.joinFrom, hraw]
  have hslash : '/' ∉ blank := fun hm => absurd (hblank _ hm) (by decide)
  obtain ⟨blank', inner', rest, line, hstyle, hsub, hinner', hrest⟩ :=
    Normalized.exists_ofText_comment hslash hinner 0 (Extraction.joinFrom 1 (r :: qs)) t.base
  rw [← htext] at hstyle hinner' hrest
  have hstar : '*' ∉ inner' := fun hm => hinner (hinner' ▸ Text.subset_indentFrom _ hm)
  obtain ⟨hcomment, hrun⟩ := Placeholder.commentRun_commentText hstar 0
  refine ⟨blank', inner', rest, line, hstyle, hinner', hrest, fun g => ?_⟩
  rw [styleText, hstyle, ← hcomment]
  exact parseUnplaced_comment_append g (fun c hc => hblank c (hsub hc)) hrun rest

/-- Behind the hole the comment is over: the brace in it closes no block, and the style text is
none. -/
theorem parse_commentedHole_brace :
    let source : Text := "css`/*a\x7b$\x7bx\x7d\x7d*/c: d;`".toList
    let q : Quasi := ⟨⟨4, 8⟩, ⟨1, 5⟩, ⟨1, 9⟩, "/*a\x7b".toList⟩
    let r : Quasi := ⟨⟨12, 20⟩, ⟨1, 13⟩, ⟨1, 21⟩, "\x7d*/c: d;".toList⟩
    let t : Tagged :=
      { tag := .identifier "css".toList, span := ⟨0, 21⟩, quasis := [q, r]
        holes := [⟨⟨10, 11⟩, ⟨1, 11⟩⟩], leadingComments := [] }
    findTemplates source = .ok [t] ∧
      (∃ blank inner rest : Text,
        styleText source t = blank ++ '/' :: '*' :: (inner ++ create 0 ++ rest) ∧
          ∀ g, parseUnplaced g (styleText source t) = (parseUnplaced g rest).map
            (Root.cons (commentNode blank (Placeholder.commentText inner 0)))) ∧
      ∀ d ∈ Dialect.builtin, (d.parse none (styleText source t)).map (fun _ => ()) =
        .error (.unexpectedClose ⟨1, 21⟩) := by
  intro source q r t
  refine ⟨by decide +kernel, ?_, by decide +kernel⟩
  obtain ⟨blank, inner, rest, -, hstyle, -, -, hparse⟩ :=
    @parse_commentedHole t q r [] rfl [] "a\x7b".toList rfl (by simp) (by decide) source
  exact ⟨blank, inner, rest, hstyle, hparse⟩

end Assembly

end StyleBlocks
