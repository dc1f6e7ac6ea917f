import StyleBlocks.Proofs.Sheet.DeclarationValue
import StyleBlocks.Sheet.Dialect

/-!
# Quoted addresses

An address is the word `url` with parentheses around text without quotes. With a quoted string
between the parentheses it is no token, and neither are its letters with the parenthesis: once they
are read, nothing shorter will do. So a quoted address is an error wherever its letters begin a token.
That is everywhere in place of a word, but for one place. Behind a word with an at sign the letters go
on that word, and the parentheses and the string are tokens of their own.

## Main results

* `Token.tokenizeFrom_quotedAddress`: a quoted address at the start of a text is an error.
* `Dialect.parse_quotedAddress`: a quoted address in place of a word is an error, but behind words with
  an at sign.
-/

namespace StyleBlocks.Sheet

open Token (texts)

/-- The letters of an address and its opening parenthesis. -/
def addressOpening : Text :=
  "url(".toList

/-- An address with a quoted string between the parentheses. -/
def quotedAddress (quoted : Text) : Text :=
  addressOpening ++ quoted ++ [')']

namespace Token

variable {lines lines' : LineMap} {offset : Nat} {kind : TokenKind} {k l : Token} {quoted t u : Text}
  {us vs : List Token}

/-- A string begins with a quote. -/
theorem Shape.exists_quote (h : Shape .string t) :
    ∃ q u, t = q :: u ∧ (q = '\x22' ∨ q = '\x27') := by
  cases h with
  | mark h => simp [marks] at h
  | string hq => exact ⟨_, _, rfl, hq⟩

/-- The letters of an address with a parenthesis are all that is read of a quoted address. -/
theorem body_quotedAddress (hquoted : Shape .string quoted) (t : Text) :
    body 'u' ('r' :: 'l' :: '(' :: (quoted ++ [')'] ++ t)) = (none, ['r', 'l', '(']) := by
  obtain ⟨q, u, rfl, hq⟩ := hquoted.exists_quote
  rw [body_url rfl rfl rfl]
  rcases hq with rfl | rfl <;> simp [urlRun, closed]

/-- **A quoted address at the start of a text is an error**: its letters and the parenthesis are no
token. -/
theorem tokenizeFrom_quotedAddress (hquoted : Shape .string quoted) (t : Text) :
    tokenizeFrom lines offset (quotedAddress quoted ++ t) =
      .error (.unexpectedText addressOpening (lines.position offset)) := by
  have hbody := body_quotedAddress hquoted t
  have hcut : quotedAddress quoted ++ t = 'u' :: 'r' :: 'l' :: '(' :: (quoted ++ [')'] ++ t) := by
    simp [quotedAddress, addressOpening]
  rw [hcut, tokenizeFrom]
  split
  · rw [cut, hbody]
    rfl
  · simp_all

/-- A word begins with a word character or a backslash. -/
theorem Shape.head_word (h : Shape .word t) :
    ∃ c u, t = c :: u ∧ (isWordPart c = true ∨ c = '\\') := by
  cases h with
  | mark h => simp [marks] at h
  | word hne ht =>
      obtain ⟨c, u, rfl⟩ := List.exists_cons_of_ne_nil hne
      refine ⟨c, u, rfl, ?_⟩
      by_contra hc
      rw [not_or, Bool.not_eq_true] at hc
      rw [wordRun_cons hc.2, hc.1] at ht
      simp at ht

/-- What a word can follow, a letter can follow, but for words with an at sign. -/
theorem StopsAt.letter (hat : l.kind ≠ .atWord) (hk : Shape .word k.text)
    (hl : l.StopsAt (k.text ++ t)) (u : Text) : l.StopsAt ('u' :: u) := by
  obtain ⟨c, w, hw, hc⟩ := hk.head_word
  have hends : Ends l.kind l.text c := hl c (by simp [hw])
  intro d hd
  obtain rfl : 'u' = d := by simpa using hd
  unfold Ends at hends ⊢
  split at hends
  case h_1 => rfl
  case h_2 =>
    subst hends
    rcases hc with hc | hc <;> exact absurd hc (by decide)
  case h_3 =>
    rcases hc with hc | hc
    · rw [hends.1] at hc
      contradiction
    · exact absurd hc hends.2.1
  case h_4 hkind => exact absurd hkind hat
  case h_5 => exact ⟨fun _ => by decide, fun _ => by decide⟩
  case h_6 => trivial

/-- **A quoted address in place of a word** is an error, unless a word with an at sign is in front. -/
theorem tokenizeFrom_replace_word (h : tokenizeFrom lines offset t = .ok (us ++ k :: vs))
    (hk : k.kind = .word) (hat : ∀ l ∈ us.getLast?, l.kind ≠ .atWord)
    (hquoted : Shape .string quoted) (lines' : LineMap) (u : Text) :
    tokenizeFrom lines' offset (texts us ++ (quotedAddress quoted ++ u)) =
      .error (.unexpectedText addressOpening (lines'.position k.start)) := by
  obtain ⟨v, rfl, hus, hlast, hv⟩ := tokenizeFrom_eq_ok_append.1 h
  obtain ⟨w, rfl, hshape, -, hstart, -⟩ := tokenizeFrom_eq_ok_cons.1 hv
  rw [hk] at hshape
  have hstops : ∀ l ∈ us.getLast?, l.StopsAt (quotedAddress quoted ++ u) := fun l hl =>
    (hlast l hl).letter (hat l hl) hshape _
  rw [tokenizeFrom_append hus hstops, tokenizeFrom_quotedAddress hquoted, hstart]
  rfl

/-- The tokens of a quoted address behind a word with an at sign. -/
def addressTokens (name quoted : Text) : List Token :=
  [⟨.atWord, name ++ "url".toList, 0⟩, ⟨.openParen, ['('], 0⟩, ⟨.string, quoted, 0⟩,
    ⟨.closeParen, [')'], 0⟩]

/-- The tokens of a quoted address behind a word make up the word and the address. -/
@[simp] theorem texts_addressTokens (name quoted : Text) :
    texts (addressTokens name quoted) = name ++ quotedAddress quoted := by
  simp [addressTokens, quotedAddress, addressOpening]

/-- **Behind a word with an at sign**, a quoted address goes on that word, and its parentheses and
string are tokens. -/
theorem exists_tokenizeFrom_atWord
    (h : tokenizeFrom lines offset t = .ok (us ++ l :: k :: vs)) (hl : l.kind = .atWord)
    (hquoted : Shape .string quoted) (lines' : LineMap) :
    ∃ ts, tokenizeFrom lines' offset (texts us ++ (l.text ++ quotedAddress quoted) ++ texts vs) =
        .ok ts ∧
      ts.map unplaced = (us ++ addressTokens l.text quoted ++ vs).map unplaced := by
  obtain ⟨v, rfl, hus, hlast, hv⟩ := tokenizeFrom_eq_ok_append.1 h
  obtain ⟨w, rfl, hshape, -, -, hw⟩ := tokenizeFrom_eq_ok_cons.1 hv
  obtain ⟨x, rfl, -, -, -, hvs⟩ := tokenizeFrom_eq_ok_cons.1 hw
  obtain rfl : texts vs = x := texts_of_tokenizeFrom hvs
  rw [hl] at hshape
  obtain ⟨c, name, hname⟩ := List.exists_cons_of_ne_nil hshape.ne_nil
  have hletters : Shape .atWord (l.text ++ "url".toList) := by
    generalize l.text = w at hshape
    cases hshape with
    | mark h => simp [marks] at h
    | atWord hall =>
        refine .atWord fun d hd => ?_
        rcases List.mem_append.1 hd with hd | hd
        · exact hall d hd
        · simp only [String.reduceToList, List.mem_cons, List.not_mem_nil, or_false] at hd
          rcases hd with rfl | rfl | rfl <;> rfl
  have hopen : Shape .openParen ['('] := .mark (by decide)
  have hclose : Shape .closeParen [')'] := .mark (by decide)
  have hstops : ∀ m ∈ us.getLast?, m.StopsAt (l.text ++ quotedAddress quoted ++ texts vs) := by
    intro m hm
    have := hlast m hm
    simpa [StopsAt, hname] using this
  have htext : l.text ++ quotedAddress quoted ++ texts vs =
      (l.text ++ "url".toList) ++ (['('] ++ (quoted ++ ([')'] ++ texts vs))) := by
    simp [quotedAddress, addressOpening]
  have hends : ∀ d ∈ (['('] ++ (quoted ++ ([')'] ++ texts vs))).head?,
      Ends .atWord (l.text ++ "url".toList) d := by
    intro d hd
    obtain rfl : '(' = d := by simpa using hd
    exact ⟨rfl, by simp⟩
  rw [List.append_assoc, tokenizeFrom_append hus hstops, htext,
    tokenizeFrom_shape_append hletters hends, tokenizeFrom_shape_append hopen fun _ _ => trivial,
    tokenizeFrom_shape_append hquoted fun _ _ => trivial,
    tokenizeFrom_shape_append hclose fun _ _ => trivial]
  obtain ⟨vs', hvs', hunplaced⟩ := exists_tokenizeFrom hvs lines' _
  rw [hvs']
  refine ⟨_, rfl, ?_⟩
  simp [addressTokens, hunplaced, unplaced]

end Token

/-! ### Values -/

section

variable {k l : Token} {us vs : List Token} {t p s quoted : Text}

/-- A word with an at sign and a word are inert. -/
theorem inert_atWord (hl : l.kind = .atWord) (hk : k.kind = .word) : Inert [l, k] where
  solid := ⟨⟨l, [k], rfl, by simp [Token.isSpace, hl]⟩, [l], k, rfl, by simp [Token.isSpace, hk]⟩
  passes depth := by simp [Passes, Token.endsStatement, hl, hk]
  closed depth := by simp [depthAfterAll, Token.depthAfter, hl, hk]

/-- The tokens of a quoted address are inert. -/
theorem inert_addressTokens (name quoted : Text) : Inert (Token.addressTokens name quoted) where
  solid := ⟨⟨_, _, rfl, rfl⟩, [_, _, _], _, rfl, rfl⟩
  passes depth := by simp [Token.addressTokens, Passes, Token.endsStatement]
  closed depth := by simp [Token.addressTokens, depthAfterAll, Token.depthAfter]

/-- Of two cuts of tokens, that with the longer text is behind the other. -/
theorem exists_eq_append_of_texts {as bs us vs : List Token} (hne : ∀ k ∈ as, k.text ≠ [])
    (h : as ++ bs = us ++ vs) (ht : texts us = texts as ++ p) : ∃ ws, us = as ++ ws ∧ texts ws = p := by
  have hprefix : ∃ ws, us = as ++ ws := by
    rcases List.append_eq_append_iff.1 h with ⟨ws, hws, -⟩ | ⟨ws, rfl, -⟩
    · exact ⟨ws, hws⟩
    · have hnil : texts ws = [] := by
        have hlength := congrArg List.length ht
        simp only [Token.texts_append, List.length_append] at hlength
        exact List.eq_nil_of_length_eq_zero (by omega)
      cases ws with
      | nil => exact ⟨[], by simp⟩
      | cons w ws => exact absurd (List.append_eq_nil_iff.1 hnil).1 (hne w (by simp))
  obtain ⟨ws, rfl⟩ := hprefix
  exact ⟨ws, rfl, by simpa using ht⟩

/-- A word of the value, and a word with an at sign in front of it, are tokens of the value: the value
does not begin within the latter. -/
theorem exists_value_split {ahead core behind : List Token}
    (hne : ∀ m ∈ us ++ l :: k :: vs, m.text ≠ [])
    (hall : us ++ l :: k :: vs = ahead ++ core ++ behind)
    (hlast : ∃ m ∈ ahead.getLast?, m.kind = .colon ∨ m.isSpace = true) (hl : l.kind = .atWord)
    (hfront : texts (us ++ [l]) = texts ahead ++ p) (hcore : texts core = p ++ k.text ++ s) :
    ∃ v w, us = ahead ++ v ∧ core = v ++ [l, k] ++ w ∧ vs = w ++ behind ∧
      texts v ++ l.text = p ∧ texts w = s := by
  obtain ⟨u, hu, hp⟩ : ∃ u, us ++ [l] = ahead ++ u ∧ texts u = p := by
    refine exists_eq_append_of_texts (fun m hm => ?_)
      (show ahead ++ (core ++ behind) = us ++ [l] ++ k :: vs from ?_) hfront
    · exact hne m (by rw [hall]; simp [hm])
    · rw [← List.append_assoc, ← hall]
      simp
  obtain ⟨v, rfl⟩ : ∃ v, u = v ++ [l] := by
    rcases List.eq_nil_or_concat' u with rfl | ⟨v, x, rfl⟩
    · obtain ⟨m, hm, hkind⟩ := hlast
      rw [← List.append_nil ahead, ← hu, List.getLast?_concat] at hm
      obtain rfl : l = m := Option.some.inj hm
      rcases hkind with h | h <;> simp [hl, Token.isSpace] at h
    · rw [← List.append_assoc] at hu
      obtain ⟨-, hx⟩ := List.append_inj' hu rfl
      exact ⟨v, by rw [(List.cons.inj hx).1]⟩
  rw [← List.append_assoc] at hu
  obtain ⟨rfl, -⟩ := List.append_inj' hu rfl
  have hrest : v ++ [l, k] ++ vs = core ++ behind := by
    simp only [List.append_assoc] at hall
    simpa using List.append_cancel_left hall
  obtain ⟨w, rfl, hs⟩ : ∃ w, core = v ++ [l, k] ++ w ∧ texts w = s := by
    refine exists_eq_append_of_texts (fun m hm => hne m ?_) hrest ?_
    · simp only [List.append_assoc, List.mem_append, List.mem_cons, List.not_mem_nil] at hm ⊢
      tauto
    · rw [hcore, ← hp]
      simp
  exact ⟨v, w, rfl, rfl, by simpa using hrest, by simpa using hp, hs⟩

/-- **A quoted address behind a word with an at sign**, in place of a word of the value, changes the
value and nothing else. -/
theorem parseUnplaced_atWord {g : Grammar} {root : Root} {d : Declaration}
    (hts : Token.tokenize t = .ok (us ++ l :: k :: vs)) (hl : l.kind = .atWord) (hk : k.kind = .word)
    (hroot : parse g t = .ok root) (hd : root.nodes = [.declaration d])
    (hfront : texts (us ++ [l]) = d.before.getD [] ++ d.prop ++ d.between.getD [] ++ p)
    (hvalue : d.value = p ++ k.text ++ s) (hquoted : Token.Shape .string quoted) :
    parseUnplaced g (texts (us ++ [l]) ++ quotedAddress quoted ++ texts vs) =
      .ok { root with nodes :=
        [.declaration { d with value := p ++ quotedAddress quoted ++ s }] }.unplaced := by
  have hne : ∀ m ∈ us ++ l :: k :: vs, m.text ≠ [] := fun m hm =>
    (Token.hasForm_of_mem hts hm).ne_nil
  obtain ⟨ahead, core, behind, hall, hcore, hahead, hlast, hreplace⟩ :=
    exists_core_of_parse hts hroot hd (by simp [hvalue, hne k (by simp)])
  obtain ⟨v, w, rfl, rfl, rfl, hp, hs⟩ := exists_value_split hne hall hlast hl (hahead ▸ hfront)
    (hcore.symm.trans hvalue)
  obtain ⟨ts, hts', hunplaced⟩ := Token.exists_tokenizeFrom_atWord hts hl hquoted (LineMap.ofText t)
  have htext : texts (ahead ++ v ++ [l]) ++ quotedAddress quoted ++ texts (w ++ behind) =
      texts (ahead ++ v) ++ (l.text ++ quotedAddress quoted) ++ texts (w ++ behind) := by simp
  rw [htext, hreplace v [l, k] w (Token.addressTokens l.text quoted) rfl (inert_atWord hl hk)
    (inert_addressTokens l.text quoted) _ _ ts hts' (by rw [hunplaced]; simp)]
  simp [← hp, hs]

end

/-- The declaration that is all a style sheet consists of. -/
def Root.onlyDeclaration? (r : Root) : Option Declaration :=
  match r.nodes with
  | [.declaration d] => some d
  | _ => none

/-- A style sheet whose only node is a declaration has this node. -/
theorem Root.nodes_of_onlyDeclaration? (r : Root) {d : Declaration}
    (h : r.onlyDeclaration? = some d) : r.nodes = [.declaration d] := by
  rw [onlyDeclaration?] at h
  split at h
  · next e hnodes => rw [hnodes, Option.some.inj h]
  · contradiction

/-- **Quoted addresses.** A quoted address in place of a word in the value of a declaration is accepted
just if a word with an at sign stands right in front of it; then nothing but the value changes.
Otherwise the letters of the address and its parenthesis are an error, in every dialect. -/
theorem Dialect.parse_quotedAddress {d : Dialect} {origin : Option Text} {root : Root}
    {decl : Declaration} {us vs : List Token} {k : Token} {t p s quoted : Text}
    (hts : Token.tokenize t = .ok (us ++ k :: vs)) (hk : k.kind = .word)
    (hroot : d.parse origin t = .ok root) (hdecl : root.nodes = [.declaration decl])
    (hfront : texts us = decl.before.getD [] ++ decl.prop ++ decl.between.getD [] ++ p)
    (hvalue : decl.value = p ++ k.text ++ s)
    (hquoted : Token.tokenize quoted = .ok [⟨.string, quoted, 0⟩]) :
    let replaced := texts us ++ quotedAddress quoted ++ texts vs
    ((∃ l ∈ us.getLast?, l.kind = .atWord) → unplacedWith Root.unplaced (d.parse origin replaced) =
      .ok { root with nodes :=
        [.declaration { decl with value := p ++ quotedAddress quoted ++ s }] }.unplaced) ∧
    ((∀ l ∈ us.getLast?, l.kind ≠ .atWord) → d.parse origin replaced =
      .error (.unexpectedText addressOpening ((LineMap.ofText replaced).position k.start))) := by
  intro replaced
  obtain ⟨-, -, hshape, -⟩ := Token.tokenizeFrom_eq_ok_cons.1 hquoted
  refine ⟨?_, fun hat => ?_⟩
  · rintro ⟨l, hl, hkind⟩
    obtain ⟨us, rfl⟩ := List.getLast?_eq_some_iff.1 hl
    obtain ⟨sheet, hsheet, rfl⟩ := map_eq_ok_iff.1 hroot
    have hrun := parseUnplaced_atWord (by simpa using hts) hkind hk hsheet hdecl hfront hvalue hshape
    have horigin : ∀ x : Except ParseError Root,
        unplacedWith Root.unplaced (x.map fun r => { r with origin := origin }) =
          (unplacedWith Root.unplaced x).map fun r => { r with origin := origin } := by
      rintro (e | r) <;> rfl
    rw [Dialect.parse, horigin, ← parseUnplaced, hrun]
    rfl
  · have herror := Token.tokenizeFrom_replace_word hts hk hat hshape (LineMap.ofText replaced)
      (texts vs)
    rw [Dialect.parse, parse_eq, Token.tokenize]
    simp only [replaced, List.append_assoc] at herror ⊢
    rw [herror]
    rfl

/-- A quoted address in place of a word is an error behind a blank, and goes on a word with an at
sign. -/
theorem Dialect.parse_quotedAddress_word :
    Dialect.css.parse none "a: b url(\x22x\x22);".toList =
        .error (.unexpectedText "url(".toList ⟨1, 6⟩) ∧
      ∃ root decl, Dialect.css.parse none "a: @b%c;".toList = .ok root ∧
        root.nodes = [.declaration decl] ∧ decl.value = "@b%c".toList ∧
        unplacedWith Root.unplaced (Dialect.css.parse none "a: @burl(\x22x\x22);".toList) =
          .ok { root with nodes :=
            [.declaration { decl with value := "@burl(\x22x\x22)".toList }] }.unplaced := by
  have hquoted : Token.tokenize "\x22x\x22".toList = .ok [⟨.string, "\x22x\x22".toList, 0⟩] := by
    decide +kernel
  have hdeclaration : ∀ t value : Text,
      ((Dialect.css.parse none t).toOption.bind Root.onlyDeclaration?).map
        (fun d => (d.before, d.prop, d.between, d.value)) =
          some (some [], ['a'], some [':', ' '], value) →
      ∃ root decl, Dialect.css.parse none t = .ok root ∧ root.nodes = [.declaration decl] ∧
        decl.before.getD [] ++ decl.prop ++ decl.between.getD [] = "a: ".toList ∧
        decl.value = value := by
    intro t value h
    obtain ⟨d, hd, h⟩ := Option.map_eq_some_iff.1 h
    obtain ⟨root, hroot, hd⟩ := Option.bind_eq_some_iff.1 hd
    obtain ⟨hbefore, hprop, hbetween, hvalue⟩ : d.before = some [] ∧ d.prop = ['a'] ∧
        d.between = some [':', ' '] ∧ d.value = value := by simpa using h
    refine ⟨root, d, ?_, root.nodes_of_onlyDeclaration? hd, by simp [hbefore, hprop, hbetween],
      hvalue⟩
    cases hp : Dialect.css.parse none t with
    | error e => simp [hp, Except.toOption] at hroot
    | ok r => simpa [hp, Except.toOption] using hroot
  obtain ⟨root, decl, hroot, hnodes, hfront, hvalue⟩ :=
    hdeclaration "a: b c;".toList "b c".toList (by decide +kernel)
  obtain ⟨root', decl', hroot', hnodes', hfront', hvalue'⟩ :=
    hdeclaration "a: @b%c;".toList "@b%c".toList (by decide +kernel)
  have hblank := @Dialect.parse_quotedAddress .css none root decl
    [⟨.word, ['a'], 0⟩, ⟨.colon, [':'], 1⟩, ⟨.space, [' '], 2⟩, ⟨.word, ['b'], 3⟩, ⟨.space, [' '], 4⟩]
    [⟨.semicolon, [';'], 6⟩] ⟨.word, ['c'], 5⟩ _ "b ".toList [] _ (by decide +kernel) rfl hroot hnodes
    (by rw [hfront]; rfl) hvalue hquoted
  have hword := @Dialect.parse_quotedAddress .css none root' decl'
    [⟨.word, ['a'], 0⟩, ⟨.colon, [':'], 1⟩, ⟨.space, [' '], 2⟩, ⟨.atWord, ['@', 'b'], 3⟩]
    [⟨.semicolon, [';'], 7⟩] ⟨.word, ['%', 'c'], 5⟩ _ "@b".toList [] _ (by decide +kernel) rfl hroot'
    hnodes' (by rw [hfront']; rfl) hvalue' hquoted
  refine ⟨hblank.2 (by simp), root', decl', hroot', hnodes', hvalue', ?_⟩
  exact hword.1 ⟨_, rfl, rfl⟩

end StyleBlocks.Sheet
