import StyleBlocks.Proofs.Block.EscapedPieces
import StyleBlocks.Proofs.Document.Emission
import StyleBlocks.Proofs.Document.RoundTrip
import StyleBlocks.Proofs.Sheet.TokenSeams

/-!
# Escaping leaves parsed text alone

The text of a template is raw text already. It is escaped once more when its document is printed, but
fragment by fragment, and of each fragment the pieces between placeholders. None of them changes as
long as all cuts are between escape pairs. Tokens cut pairs at one place only: a comment that runs to
the end of its line leaves the line feed to the next token, also where a backslash stands in front of
it. A fragment that ends with such a comment gets a backslash too many.

## Main results

* `Sheet.Token.Shape.eq_lineComment`: only a comment that runs to the end of its line can dangle.
* `Sheet.exists_of_mem_spell`: fragments that spell tokens keep escape pairs as the tokens do.
* `Assembly.escaped_unchanged_iff`: escaping changes the text of a fragment just if the fragment ends
  with a comment that takes the backslash of an escaped line feed.
-/

namespace StyleBlocks

open Placeholder Sheet Template RawText

namespace Sheet

/-! ### Tokens -/

namespace Token

/-- Tokens that are neighbours **share a pair** only if it is an escaped line feed. -/
def KeepsPairs (k l : Token) : Prop :=
  dangles k.text = true → l.text.head? = some '\n'

/-- A word does not end within an escape pair. -/
theorem dangles_wordRun (t : Text) : dangles (wordRun t) = false := by
  fun_induction wordRun t with
  | case1 => rfl
  | case2 c t ih => simpa using ih
  | case3 c t _ hc ih => rwa [dangles_cons (ne_backslash_of_isWordPart hc)]
  | case4 => rfl

/-- **Only a comment that runs to the end of its line can dangle**: other tokens end with a character
of their own, or with whole pairs. -/
theorem Shape.eq_lineComment {kind : TokenKind} {t : Text} (h : Shape kind t)
    (hd : dangles t = true) : kind = .lineComment := by
  have hmem := List.mem_of_getLast? (getLast?_of_dangles hd)
  -- no token but one ends in a backslash
  have hend : ∀ {s c}, t = s ++ [c] → c ≠ '\\' → kind = .lineComment := by
    rintro s c rfl hc
    rw [dangles_concat hc] at hd
    contradiction
  cases h with
  | lineComment => rfl
  | space _ ht => exact absurd (ht _ hmem) (by decide)
  | @comment t ht =>
      obtain ⟨inner, rfl⟩ := commentRun_eq_append ht
      exact hend (s := '/' :: '*' :: (inner ++ ['*'])) (c := '/') (by simp) (by decide)
  | @string q t hq =>
      exact hend (s := q :: t) (c := q) (by simp) (by rcases hq with rfl | rfl <;> decide)
  | @url u r l t =>
      exact hend (s := u :: r :: l :: '(' :: t) (c := ')') (by simp) (by decide)
  | @interpolation c t => exact hend (s := c :: '{' :: t) (c := '}') (by simp) (by decide)
  | @mark c kind hc =>
      obtain rfl : '\\' = c := by simpa using hmem
      simp [marks] at hc
  | slash | hash => simp at hmem
  | @atWord t ht =>
      obtain ht' : '\\' ∈ t := by simpa using hmem
      exact absurd (ht _ ht') (by decide)
  | @word t _ ht =>
      rw [← ht, dangles_wordRun] at hd
      contradiction

variable {lines : LineMap} {offset : Nat} {t : Text} {k : Token} {ts us : List Token}

/-- **The tokens of a text** share no pairs but escaped line feeds. -/
theorem isChain_keepsPairs (h : tokenizeFrom lines offset t = .ok ts) : ts.IsChain KeepsPairs := by
  induction ts generalizing offset t with
  | nil => exact List.isChain_nil
  | cons k ts ih =>
      obtain ⟨u, rfl, hshape, hstops, -, hu⟩ := tokenizeFrom_eq_ok_cons.1 h
      refine (ih hu).cons fun l hl hd => ?_
      obtain ⟨ts, rfl⟩ := List.head?_eq_some_iff.1 hl
      obtain ⟨v, rfl, hl, -⟩ := tokenizeFrom_eq_ok_cons.1 hu
      obtain ⟨c, w, hw⟩ := List.exists_cons_of_ne_nil hl.ne_nil
      have hends : Ends k.kind k.text c := hstops c (by simp [hw])
      rw [hshape.eq_lineComment hd, Ends] at hends
      simp [hw, hends]

/-- Tokens that are neighbours dangle if the last of them does. -/
theorem dangles_texts_concat (h : (us ++ [k]).IsChain KeepsPairs) :
    dangles (texts (us ++ [k])) = dangles k.text := by
  induction us with
  | nil => simp
  | cons l us ih =>
      obtain ⟨hhead, hrest⟩ := List.isChain_cons.1 h
      rw [List.cons_append, texts_cons, dangles_append_of_head?, ih hrest]
      intro hd
      cases us with
      | nil => simp [hhead k rfl hd]
      | cons m us => simp [hhead m rfl hd]

end Token

/-! ### Fragments -/

section

variable {front : Nat → Text} {lead w : Text} {line : Nat} {gs : List (List Token)}

/-- **Fragments that spell tokens keep escape pairs as the tokens do**: each starts a sheltered text,
and one that dangles ends with a token that does, in front of the line feed that it takes the
backslash of. -/
theorem exists_of_mem_spell (hfront : ∀ n, '\\' ∉ front n) (hlead : '\\' ∉ lead)
    (hchain : gs.flatten.IsChain Token.KeepsPairs)
    (hline : ∀ k ∈ gs.flatten, dangles k.text = true → '\n' ∉ k.text)
    (hsheltered : Sheltered (spell front lead line gs).flatten)
    (hw : w ∈ spell front lead line gs) :
    (∃ z, Sheltered (w ++ z)) ∧ (dangles w = true → ∃ us k vs, gs.flatten = us ++ k :: vs ∧
      dangles k.text = true ∧ k.text <:+ w ∧ (Token.texts vs).head? = some '\n') := by
  induction gs generalizing lead line with
  | nil => simp [spell] at hw
  | cons g gs ih =>
      rw [spell, List.flatten_cons] at hsheltered
      rw [spell, List.mem_cons] at hw
      rw [List.flatten_cons] at hchain hline
      have hrest : (spell front [] (line + (Token.texts g).breaks) gs).flatten = _ :=
        flatten_spell fun _ => rfl
      have hgroup : dangles (lead ++ Text.indentFrom front line (Token.texts g)) =
          dangles (Token.texts g) := by
        rw [dangles_append (dangles_of_notMem hlead), dangles_indentFrom hfront]
      -- the last token of a group that dangles stands in front of a line feed
      have hcut : dangles (Token.texts g) = true → ∃ us k, g = us ++ [k] ∧
          dangles k.text = true ∧ (Token.texts gs.flatten).head? = some '\n' := by
        intro hd
        rcases List.eq_nil_or_concat' g with rfl | ⟨us, k, rfl⟩
        · simp at hd
        have hk : dangles k.text = true := by
          rwa [← Token.dangles_texts_concat hchain.left_of_append]
        refine ⟨us, k, rfl, hk, ?_⟩
        cases hgs : gs.flatten with
        | nil =>
            rw [hrest, hgs] at hsheltered
            have hraw : IsRaw (lead ++ Text.indentFrom front line (Token.texts (us ++ [k]))) := by
              simpa using hsheltered.isRaw
            rw [hraw.dangles_eq_false, hd] at hgroup
            contradiction
        | cons l ls =>
            rw [hgs] at hchain
            have hnext := (List.isChain_append.1 hchain).2.2 k (by simp) l rfl hk
            simp [hnext]
      have htail : Sheltered (spell front [] (line + (Token.texts g).breaks) gs).flatten := by
        refine hsheltered.of_append fun hd => ?_
        obtain ⟨-, -, -, -, hhead⟩ := hcut (hgroup ▸ hd)
        obtain ⟨u, hu⟩ := List.head?_eq_some_iff.1 hhead
        simp [hrest, hu]
      rcases hw with rfl | hw
      · refine ⟨⟨_, hsheltered⟩, fun hd => ?_⟩
        obtain ⟨us, k, rfl, hk, hhead⟩ := hcut (hgroup ▸ hd)
        refine ⟨us, k, gs.flatten, by simp, hk, ?_, hhead⟩
        have hlast : Token.texts [k] = k.text := by simp
        rw [Token.texts_append, Text.indentFrom_append, ← List.append_assoc, hlast,
          Text.indentFrom_of_notMem (hline k (by simp) hk)]
        exact List.suffix_append _ _
      · obtain ⟨hz, hpair⟩ := ih (by simp) hchain.right_of_append
          (fun k hk => hline k (List.mem_append_right _ hk)) htail hw
        refine ⟨hz, fun hd => ?_⟩
        obtain ⟨us, k, vs, hgs, hk⟩ := hpair hd
        exact ⟨g ++ us, k, vs, by simp [hgs], hk⟩

end

namespace Fragment

/-- The texts of a fragment that are **escaped** when it is printed. -/
def escaped (es : List Text) (f : Fragment) : List Text :=
  match f.owner with
  | none | some .root => []
  | some .comment =>
    if ((readFragment? f.text).bind fun i => es[i]?).isSome then []
    else Placeholder.escaped es f.text
  | some _ => Placeholder.escaped es f.text

/-- A fragment with its placeholders **filled**, and nothing escaped. -/
def filled (es : List Text) (f : Fragment) : Fragment :=
  match f.owner with
  | none | some .root => f
  | some .comment =>
    { f with text := ((readFragment? f.text).bind fun i => es[i]?).getD (substitute es f.text) }
  | some _ => { f with text := substitute es f.text }

/-- A fragment **ends in a pair** if the last of its tokens is a comment up to the end of a line that
ends in half a pair. -/
def EndsInPair (ts : List Token) (f : Fragment) : Prop :=
  f.IsOfNode ∧ ∃ us k vs, ts = us ++ k :: vs ∧ k.kind = .lineComment ∧ dangles k.text = true ∧
    k.text <:+ f.text ∧ (Token.texts vs).head? = some '\n'

variable {es : List Text} {f : Fragment} {z : Text}

/-- The escaped texts are all that escaping can change. -/
theorem hostSafe_eq_filled (h : ∀ w ∈ f.escaped es, escape w = w) : f.hostSafe es = f.filled es := by
  obtain ⟨t, owner, boundary⟩ := f
  have hsame : (∀ w ∈ Placeholder.escaped es t, escape w = w) → hostText es t = substitute es t :=
    fun h => resolve_congr h
  match owner with
  | none | some .root => rfl
  | some .rule | some .atRule | some .declaration => simp only [hostSafe, filled, hsame h]
  | some .comment =>
      simp only [hostSafe, filled, escaped] at h ⊢
      cases hread : (readFragment? t).bind fun i => es[i]? with
      | some e => simp
      | none =>
          simp [hread] at h
          simp [hsame h]

/-- A comment that is a placeholder as a whole does not dangle. -/
theorem dangles_of_readFragment? {t : Text} {i : Nat} (h : readFragment? t = some i) :
    dangles t = false := by
  simp only [readFragment?, Option.bind_eq_bind, Option.bind_eq_some_iff] at h
  obtain ⟨u, hu, inner, hinner, -⟩ := h
  rw [Text.dropStart?_eq_some_iff] at hu
  rw [Text.dropEnd?_eq_some_iff] at hinner
  have hcut : t = '/' :: '*' :: (inner ++ ['*']) ++ ['/'] := by simp [hu, hinner]
  rw [hcut, dangles_concat (by decide)]

/-- Nothing is escaped in what belongs to no node. -/
theorem escaped_eq_nil (h : ¬ f.IsOfNode) : f.escaped es = [] := by
  obtain ⟨t, owner, boundary⟩ := f
  match owner with
  | none | some .root => rfl
  | some .rule | some .atRule | some .declaration | some .comment =>
      exact absurd ⟨_, by decide, rfl⟩ h

/-- What escaping makes of the escaped texts of a fragment that starts a sheltered text. -/
theorem escape_of_mem_escaped (h : Sheltered (f.text ++ z)) {w : Text} (hw : w ∈ f.escaped es) :
    escape w = if dangles w then w ++ ['\\'] else w := by
  obtain ⟨t, owner, boundary⟩ := f
  match owner with
  | none | some .root => contradiction
  | some .rule | some .atRule | some .declaration => exact h.escape_of_mem_escaped hw
  | some .comment =>
      simp only [escaped] at hw
      split at hw
      · contradiction
      · exact h.escape_of_mem_escaped hw

/-- **Escaping changes nothing** in a fragment that starts a sheltered text just if the fragment does
not dangle. -/
theorem forall_escaped_iff (h : Sheltered (f.text ++ z)) (hf : f.IsOfNode) :
    (∀ w ∈ f.escaped es, escape w = w) ↔ dangles f.text = false := by
  obtain ⟨t, owner, boundary⟩ := f
  obtain ⟨o, ho, rfl⟩ : ∃ o ≠ Owner.root, owner = some o := hf
  match o with
  | .root => contradiction
  | .rule | .atRule | .declaration => exact h.escape_eq_self_iff
  | .comment =>
      simp only [escaped]
      split
      · next hsome =>
          obtain ⟨e, he⟩ := Option.isSome_iff_exists.1 hsome
          obtain ⟨i, hread, -⟩ := Option.bind_eq_some_iff.1 he
          simpa using dangles_of_readFragment? hread
      · exact h.escape_eq_self_iff

/-- A fragment that ends in a pair of the tokens of a text dangles. -/
theorem EndsInPair.dangles_eq_true {lines : LineMap} {offset : Nat} {t : Text} {ts : List Token}
    (hts : Token.tokenizeFrom lines offset t = .ok ts) (h : f.EndsInPair ts) :
    dangles f.text = true := by
  obtain ⟨-, us, k, vs, rfl, hkind, hk, ⟨s, hs⟩, -⟩ := h
  have hshape := Token.shape_of_mem hts (k := k) (by simp)
  rw [hkind] at hshape
  generalize k.text = w at hshape hk hs
  cases hshape with
  | lineComment =>
      rw [dangles_cons (by decide)] at hk
      rwa [← hs, dangles_append_cons (by decide)]
  | mark hc => simp [Token.marks] at hc

end Fragment

end Sheet

/-! ### Style sheets -/

/-- What is taken from the lines of a text has no backslashes. -/
theorem Normalized.backslash_notMem_front (text : Text) (base n : Nat) :
    '\\' ∉ (ofText text base).indentations.front n := fun h =>
  absurd (isIndent_of_mem_front h) (by decide)

/-- The text of a template behind its dropped line is sheltered. -/
theorem Normalized.sheltered_kept {text : Text} (base : Nat) (h : Sheltered text) :
    Sheltered ((ofText text base).indentations.front 1 ++
      Text.indentFrom (ofText text base).indentations.front 1 (ofText text base).text) := by
  obtain ⟨d, hd, -, -, hblank, -⟩ := ofText_spec text base
  rw [hd] at h
  have hplain : '\\' ∉ d := fun hmem => by
    rcases hblank _ hmem with h | h | h
    · exact absurd h (by decide)
    all_goals exact absurd h (by decide)
  refine h.of_append fun hdangles => ?_
  rw [dangles_of_notMem hplain] at hdangles
  contradiction

/-- **Every fragment of a relocated style sheet** starts a sheltered text, and dangles just if it ends
in a pair of the tokens. -/
theorem Relocation.dangles_iff_endsInPair {r : Relocation} {g : Grammar} {root : Root} {text : Text}
    {base : Nat} {ts : List Sheet.Token} (h : Sheltered text)
    (hindent : r.config.indentations = (Normalized.ofText text base).indentations)
    (hlines : r.lines = LineMap.ofText (Normalized.ofText text base).text)
    (hparse : Sheet.parse g (Normalized.ofText text base).text = .ok root)
    (hts : Token.tokenize (Normalized.ofText text base).text = .ok ts) :
    ∀ f ∈ Printer.root { overrides := .corrected } (r.root root), f.IsOfNode →
      (∃ z, Sheltered (f.text ++ z)) ∧ (dangles f.text = true ↔ f.EndsInPair ts) := by
  intro f hf hnode
  have htrail := Normalized.trailing_eq_front text base
  have hfront := Normalized.backslash_notMem_front text base
  rw [← hindent] at htrail hfront
  obtain ⟨done, pend, htokens, -, hroot, ⟨gs, hgs, hspell, hlead⟩, -⟩ :=
    spells_root hlines htrail hparse
  obtain rfl : done ++ pend = ts := Except.ok.inj (htokens.symm.trans hts)
  have hflat : (spell r.config.indentations.front (r.config.indentations.front 1) 1 gs).flatten = _ :=
    flatten_spell hlead
  have hkept := Normalized.sheltered_kept base h
  rw [← hindent, ← Token.texts_of_tokenize hts, ← hgs, ← hflat] at hkept
  have hmem : f.text ∈ spell r.config.indentations.front (r.config.indentations.front 1) 1 gs := by
    rw [hroot, List.mem_append] at hf
    rcases hf with hf | hf
    · change f.text ∈ spell _ _ (lineAfter []) gs
      rw [← hspell]
      exact List.mem_map_of_mem (List.mem_append_left _ hf)
    · rw [Printer.emit] at hf
      split at hf
      · contradiction
      · obtain ⟨o, ho, howner⟩ := hnode
        rw [List.mem_singleton.1 hf] at howner
        exact absurd (Option.some.inj howner).symm ho
  have hshape : ∀ k ∈ gs.flatten, dangles k.text = true → k.kind = .lineComment ∧ '\n' ∉ k.text := by
    intro k hk hd
    have hshape := Token.shape_of_mem hts (hgs ▸ hk)
    have hkind := hshape.eq_lineComment hd
    have hform := Token.hasForm_of_mem hts (hgs ▸ hk)
    rw [Token.HasForm, hkind] at hform
    obtain ⟨inner, hinner, hn⟩ := hform
    exact ⟨hkind, by simp [hinner, hn]⟩
  obtain ⟨hz, hpair⟩ := exists_of_mem_spell hfront (hfront 1)
    (hgs ▸ Token.isChain_keepsPairs hts) (fun k hk hd => (hshape k hk hd).2) hkept hmem
  refine ⟨hz, fun hd => ⟨hnode, ?_⟩, fun hends => hends.dangles_eq_true hts⟩
  obtain ⟨us, k, vs, hflatten, hk, hsuffix, hhead⟩ := hpair hd
  exact ⟨us, k, vs, hgs ▸ hflatten, (hshape k (by simp [hflatten]) hk).1, hk, hsuffix, hhead⟩

/-! ### Documents -/

namespace Assembly

variable {origin : Option Text} {source : Text}

/-- **Escaping leaves parsed text alone.** Whatever the dialect, the matcher and the directive: of
every block that a source is read as, the pieces of fragments that are escaped come back as they are,
if and only if the fragment does not end with a comment that takes the backslash of an escaped line
feed, among the tokens of the template that the block was read from. Such a piece gets one backslash
more, and all others are printed with nothing but their placeholders changed. -/
theorem escaped_unchanged_iff {dialect : Dialect} {matcher : Matcher} {directive : Text}
    {ts : List Tagged} (hts : findTemplates source = .ok ts)
    (hmark : ∀ t ∈ ts,
      selects { dialect := dialect, matcher := matcher, directive := directive } t = true →
        ∀ q ∈ t.quasis, ¬ mark <:+: q.raw) :
    ∃ doc, parse { dialect := dialect, matcher := matcher, directive := directive } origin
        source = .ok doc ∧
      ∀ b ∈ doc.blocks, ∃ t ∈ ts, ∃ config tokens, b.config = some config ∧
        readBlock { dialect := dialect, matcher := matcher, directive := directive } origin source
          t = .ok (b.root, config) ∧
        Token.tokenize (styleText source t) = .ok tokens ∧
        ∀ f ∈ Printer.root { overrides := .corrected } b.root,
          ((∀ w ∈ f.escaped b.expressions, escape w = w) ↔ ¬ f.EndsInPair tokens) ∧
          (¬ f.EndsInPair tokens → f.hostSafe b.expressions = f.filled b.expressions) ∧
          ∀ w ∈ f.escaped b.expressions, escape w = if dangles w then w ++ ['\\'] else w := by
  refine ⟨_, congrArg (Except.map _) hts, fun b hb => ?_⟩
  obtain ⟨t, ht, hsel, config, hconfig, hread⟩ := exists_readBlock_of_mem hb
  obtain ⟨front, gaps, back, hlaid, -⟩ := isIn_of_mem_findTemplates hts ht
  obtain ⟨first, hfirst, -⟩ := hlaid.exists_head
  obtain ⟨r, sheet, hsheet, hroot, rfl, hlines, hindent, -⟩ := readBlock_eq_ok rfl hfirst hread
  have hsheltered : Sheltered (Extraction.ofTemplate t source).text :=
    Extraction.sheltered_joinFrom hlaid.isRaw (hmark t ht hsel)
  obtain ⟨tokens, htokens⟩ : ∃ tokens, Token.tokenize (styleText source t) = .ok tokens := by
    obtain ⟨done, pend, htokens, -⟩ := Relocation.spells_root hlines
      (by rw [hindent]; exact Normalized.trailing_eq_front _ _) hsheet
    exact ⟨_, htokens⟩
  refine ⟨t, ht, _, tokens, hconfig, hread, htokens, fun f hf => ?_⟩
  rw [hroot] at hf
  have hall := Relocation.dangles_iff_endsInPair hsheltered hindent hlines hsheet htokens f hf
  have hiff : (∀ w ∈ f.escaped b.expressions, escape w = w) ↔ ¬ f.EndsInPair tokens := by
    by_cases hnode : f.IsOfNode
    · obtain ⟨⟨z, hz⟩, hdangles⟩ := hall hnode
      rw [Fragment.forall_escaped_iff hz hnode, ← hdangles, Bool.not_eq_true]
    · rw [Fragment.escaped_eq_nil hnode]
      exact iff_of_true (by simp) fun h => hnode h.1
  refine ⟨hiff, fun h => Fragment.hostSafe_eq_filled (hiff.2 h), fun w hw => ?_⟩
  by_cases hnode : f.IsOfNode
  · obtain ⟨⟨z, hz⟩, -⟩ := hall hnode
    exact Fragment.escape_of_mem_escaped hz hw
  · rw [Fragment.escaped_eq_nil hnode] at hw
    contradiction

/-- A value that ends with a comment, and the comment with a backslash in front of the line feed: it
is printed with two backslashes. -/
theorem escaped_unchanged_iff_lineComment :
    let source : Text := "css`a: b //\\\n`".toList
    let t : Tagged :=
      { tag := .identifier "css".toList, span := ⟨0, 14⟩
        quasis := [⟨⟨4, 13⟩, ⟨1, 5⟩, ⟨2, 1⟩, "a: b //\\\n".toList⟩]
        holes := [], leadingComments := [] }
    findTemplates source = .ok [t] ∧ (∀ q ∈ t.quasis, ¬ mark <:+: q.raw) ∧
      ∃ doc, parse { dialect := .css, matcher := {}, directive := [] } none source = .ok doc ∧
        ∃ b ∈ doc.blocks, ∃ f ∈ Printer.root { overrides := .corrected } b.root,
          (f.hostSafe b.expressions).text = f.text ++ ['\\'] ∧
          ∃ tokens, Token.tokenize (styleText source t) = .ok tokens ∧ f.EndsInPair tokens := by
  intro source t
  have hts : findTemplates source = .ok [t] := by decide +kernel
  have hmark : ∀ q ∈ t.quasis, ¬ mark <:+: q.raw := by decide +kernel
  obtain ⟨doc, hdoc, hall⟩ := @escaped_unchanged_iff none source .css {} [] [t] hts
    fun u hu _ => List.mem_singleton.1 hu ▸ hmark
  have hrun : (parse { dialect := .css, matcher := {}, directive := [] } none source).toOption.map
      (fun d => d.blocks.any fun b => (Printer.root { overrides := .corrected } b.root).any fun f =>
        decide ((∃ w ∈ f.escaped b.expressions, escape w ≠ w) ∧
          (f.hostSafe b.expressions).text = f.text ++ ['\\'])) = some true := by
    decide +kernel
  rw [hdoc, Except.toOption, Option.map_some, Option.some.injEq, List.any_eq_true] at hrun
  obtain ⟨b, hb, hfragments⟩ := hrun
  obtain ⟨f, hf, hdecide⟩ := List.any_eq_true.1 hfragments
  obtain ⟨⟨w, hw, hne⟩, hprinted⟩ := of_decide_eq_true hdecide
  obtain ⟨u, hu, -, tokens, -, -, htokens, hfragment⟩ := hall b hb
  obtain rfl := List.mem_singleton.1 hu
  refine ⟨hts, hmark, doc, hdoc, b, hb, f, hf, hprinted, tokens, htokens, ?_⟩
  by_contra hends
  exact hne ((hfragment f hf).1.2 hends w hw)

end Assembly

end StyleBlocks
