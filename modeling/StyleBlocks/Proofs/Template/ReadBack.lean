import StyleBlocks.Proofs.Template.Code
import StyleBlocks.Proofs.Template.Laminar

/-!
# Templates that are written

A template that is written as literal parts with code in the holes between them is read back with
these parts and these holes, however deep templates stand in holes of others.

The proof follows the structure of code. Reading goes over code: the levels that it opens are closed
when the brace behind it is met, and those below are as they were, so that this brace closes the hole.
Reading the parts of a template, in turn, goes over the code of every hole and leaves the levels as
they were at the opening backtick.

## Main results

* `IsCode.readsOver`: reading goes over code.
* `readToEnd_template`: what reading a template does.
* `findTemplates_written`: a template that is written is read back.
-/

namespace StyleBlocks.Template

/-! ### What is read of a template -/

/-- A template with one more literal part, which starts at an offset, and the hole behind it. -/
def Unclosed.addPart (lines : LineMap) (o : Nat) (raw code : Text) (u : Unclosed) : Unclosed :=
  let start := o + Text.byteSize raw + 2
  (u.addQuasi (.ofRaw lines o raw)).addHole
    ⟨⟨start, start + Text.byteSize code⟩, lines.position start⟩

/-- A template with all its parts and holes, the first of which starts at an offset. -/
def Unclosed.addParts (lines : LineMap) (o : Nat) (u : Unclosed) :
    List (Text × Text) → Text → Unclosed
  | [], last => u.addQuasi (.ofRaw lines o last)
  | (raw, code) :: parts, last =>
    (u.addPart lines o raw code).addParts lines
      (o + Text.byteSize raw + 2 + Text.byteSize code + 1) parts last

section

variable {lines : LineMap} {parts : List (Text × Text)} {last : Text} {u : Unclosed} {o : Nat}

/-- The parts of a template leave its tag as it is. -/
@[simp] theorem Unclosed.chain_addParts : (u.addParts lines o parts last).chain = u.chain := by
  induction parts generalizing u o with
  | nil => rfl
  | cons p parts ih => exact ih

/-- The literal parts are those written. -/
theorem Unclosed.map_raw_addParts : (u.addParts lines o parts last).quasis.map Quasi.raw =
    u.quasis.map Quasi.raw ++ (parts.map Prod.fst ++ [last]) := by
  induction parts generalizing u o with
  | nil => simp [addParts, addQuasi, Quasi.ofRaw]
  | cons p parts ih =>
      rw [addParts, ih]
      simp [addPart, addHole, addQuasi, Quasi.ofRaw]

/-- The spans of the holes cover the code written in them. -/
theorem Unclosed.map_of?_addParts {source front back : Text}
    (hsource : source = front ++ writeParts parts last ++ back) (ho : o = Text.byteSize front) :
    (u.addParts lines o parts last).holes.map (fun h => h.span.of? source) =
      u.holes.map (fun h => h.span.of? source) ++ parts.map fun p => some p.2 := by
  induction parts generalizing u o front with
  | nil => simp [addParts, addQuasi]
  | cons p parts ih =>
      obtain ⟨raw, code⟩ := p
      have hcut : source =
          front ++ raw ++ '$' :: '{' :: (code ++ ['}']) ++ (writeParts parts last ++ back) := by
        simp only [hsource, writeParts_cons, List.append_assoc]
      have hcode := slice?_hole (front ++ raw) code (writeParts parts last ++ back)
      rw [← hcut, Text.byteSize_append, ← ho] at hcode
      have hstop : o + Text.byteSize raw + 2 + Text.byteSize code + 1 =
          Text.byteSize (front ++ raw ++ '$' :: '{' :: (code ++ ['}'])) := by
        rw [Text.byteSize_append, byteSize_hole, Text.byteSize_append, ho]
        omega
      rw [addParts, ih (by rw [hcut, List.append_assoc _ (writeParts parts last)]) hstop]
      simp [addPart, addHole, addQuasi, Span.of?, hcode]

/-- A template with a tag is kept when it is closed. -/
theorem Unclosed.close?_of_chain {c : Chain} (h : u.chain = some c) (stop : Nat) :
    u.close? stop = some ⟨c.tag, ⟨c.start, stop⟩, u.quasis, u.holes, u.leadingComments⟩ := by
  rw [close?, h]
  rfl

/-- The size of a part with its hole is added to that of the parts behind it. -/
theorem byteSize_writeParts_cons (raw code : Text) :
    Text.byteSize (writeParts ((raw, code) :: parts) last) =
      Text.byteSize raw + 2 + Text.byteSize code + 1 + Text.byteSize (writeParts parts last) := by
  rw [writeParts_cons, Text.byteSize_append, Text.byteSize_append, byteSize_hole]
  omega

end

/-! ### Reading over code -/

/-- Reads all the code that is left at a place. -/
def Reading.toEnd (lines : LineMap) (r : Reading) : Except ScanError Nesting :=
  readToEnd lines r.nesting r.offset r.rest

/-- Reading **goes over** a text in which closing brackets are due: when the brace behind the text is
met, the levels that these brackets close are closed, and those below are as they were. -/
def ReadsOver (lines : LineMap) (due : List LexemeKind) (code : Text) : Prop :=
  ∀ (n : Nesting) (o : Nat) (os base : List Opener) (t : Text), n.openers = os ++ base →
    os.map Opener.closer? = due.map some →
      ∃ (m : Nesting) (ts : List Tagged), m.openers = base ∧ m.closed = n.closed ++ ts ∧
        readToEnd lines n o (code ++ '}' :: t) =
          readToEnd lines m (o + Text.byteSize code) ('}' :: t)

section

variable {lines : LineMap} {n : Nesting} {o : Nat} {c : Char} {t : Text}
  {parts : List (Text × Text)} {last : Text}

/-- Reading to the end goes on behind a lexeme that is read. -/
theorem readToEnd_of_readLexeme {r : Reading} (h : readLexeme lines n o c t = .ok r) :
    readToEnd lines n o (c :: t) = r.toEnd lines := by
  rw [readToEnd_cons, h]
  rfl

/-- Reading a literal part and its hole, if it goes over the code of the hole, leaves the levels as
they are. -/
theorem readLiteral_part {raw code : Text} (hraw : RawText.IsRaw raw)
    (hcode : ReadsOver lines [] code) (u : Unclosed) (n : Nesting) (o : Nat) (t : Text) :
    ∃ (m : Nesting) (ts : List Tagged), m.openers = n.openers ∧ m.closed = n.closed ++ ts ∧
      (readLiteral lines u ⟨n, o, raw ++ '$' :: '{' :: (code ++ '}' :: t)⟩).bind
          (Reading.toEnd lines) =
        (readLiteral lines (u.addPart lines o raw code)
          ⟨m, o + Text.byteSize raw + 2 + Text.byteSize code + 1, t⟩).bind (Reading.toEnd lines) := by
  obtain ⟨m, ts, ho, hc, hread⟩ := hcode
    (n.openHole (u.addQuasi (.ofRaw lines o raw)) (o + Text.byteSize raw + 2))
    (o + Text.byteSize raw + 2) [] _ t rfl rfl
  obtain ⟨m', ho', hc', hread'⟩ :=
    readLexeme_hole lines ho (o + Text.byteSize raw + 2 + Text.byteSize code) t
  refine ⟨m', ts, ho', hc'.trans hc, ?_⟩
  rw [readLiteral_hole hraw]
  change readToEnd _ _ _ _ = _
  rw [hread, readToEnd_cons, hread']
  rfl

/-- **Reading the parts of a template**, if it goes over the code of every hole, closes the template
and leaves the levels as they are. -/
theorem readLiteral_writeParts (hraws : ∀ p ∈ parts, RawText.IsRaw p.1)
    (hcodes : ∀ p ∈ parts, ReadsOver lines [] p.2) (hlast : RawText.IsRaw last) (u : Unclosed)
    (n : Nesting) (o : Nat) (t : Text) :
    ∃ (m : Nesting) (ts : List Tagged), m.openers = n.openers ∧
      m.closed = n.closed ++ (ts ++ ((u.addParts lines o parts last).close?
        (o + Text.byteSize (writeParts parts last))).toList) ∧
      (readLiteral lines u ⟨n, o, writeParts parts last ++ t⟩).bind (Reading.toEnd lines) =
        readToEnd lines m (o + Text.byteSize (writeParts parts last)) t := by
  induction parts generalizing u n o with
  | nil =>
      have hsize : Text.byteSize (writeParts [] last) = Text.byteSize last + 1 := by
        rw [writeParts, Text.byteSize_append]
        rfl
      refine ⟨_, [], Nesting.openers_closeTemplate _ _ n, Nesting.closed_closeTemplate _ _ n, ?_⟩
      rw [hsize, writeParts, List.append_assoc, List.singleton_append, readLiteral_last hlast]
      rfl
  | cons p parts ih =>
      obtain ⟨raw, code⟩ := p
      obtain ⟨hraw, hraws⟩ := List.forall_mem_cons.1 hraws
      obtain ⟨hcode, hcodes⟩ := List.forall_mem_cons.1 hcodes
      obtain ⟨m, ts, hm, hc, hread⟩ :=
        readLiteral_part hraw hcode u n o (writeParts parts last ++ t)
      obtain ⟨m', ts', hm', hc', hread'⟩ := ih hraws hcodes (u.addPart lines o raw code) m
        (o + Text.byteSize raw + 2 + Text.byteSize code + 1)
      have hstop : o + Text.byteSize (writeParts ((raw, code) :: parts) last) =
          o + Text.byteSize raw + 2 + Text.byteSize code + 1 +
            Text.byteSize (writeParts parts last) := by
        rw [byteSize_writeParts_cons]
        omega
      refine ⟨m', ts ++ ts', hm'.trans hm, ?_, ?_⟩
      · rw [hc', hc, hstop, Unclosed.addParts, List.append_assoc, List.append_assoc]
      · rw [hstop, ← hread', ← hread]
        simp [writeParts]

/-- **Reading a template**, if it goes over the code of every hole, closes the template and leaves the
levels as they are. -/
theorem readToEnd_template (hraws : ∀ p ∈ parts, RawText.IsRaw p.1)
    (hcodes : ∀ p ∈ parts, ReadsOver lines [] p.2) (hlast : RawText.IsRaw last) (n : Nesting)
    (o : Nat) (t : Text) :
    ∃ (m : Nesting) (ts : List Tagged) (comments : List Text),
      let u : Unclosed := { chain := n.chain, opening := o, leadingComments := comments }
      let stop := o + Text.byteSize ('\x60' :: writeParts parts last)
      m.openers = n.openers ∧
        m.closed = n.closed ++ (ts ++ ((u.addParts lines (o + 1) parts last).close? stop).toList) ∧
        readToEnd lines n o ('\x60' :: writeParts parts last ++ t) = readToEnd lines m stop t := by
  have hstop : o + Text.byteSize ('\x60' :: writeParts parts last) =
      o + 1 + Text.byteSize (writeParts parts last) := by
    rw [Text.byteSize_cons, ← Nat.add_assoc]
    rfl
  obtain ⟨m, comments, hm, hc, hopen⟩ := readLexeme_backtick lines n o (writeParts parts last ++ t)
  obtain ⟨m', ts, hm', hc', hread⟩ := readLiteral_writeParts hraws hcodes hlast
    { chain := n.chain, opening := o, leadingComments := comments } m (o + 1) t
  refine ⟨m', ts, comments, hm'.trans hm, ?_, ?_⟩
  · rw [hc', hc, hstop]
  · rw [List.cons_append, readToEnd_cons, hopen, hstop]
    exact hread

/-- Reading goes over a lexeme and over the code behind it. -/
theorem ReadsOver.cons {due : List LexemeKind} {u : Text} {k : LexemeKind}
    (h : ReadsOver lines due (Lexeme.rest c u)) (hkind : (Lexeme.read c u).kind = some k)
    (hends : k = .lineComment → Lexeme.rest c u ≠ []) {m : Nesting} {os base : List Opener}
    (ho : m.openers = os ++ base) (hdue : os.map Opener.closer? = due.map some)
    (hc : m.closed = n.closed)
    (hread : readLexeme lines n o c (u ++ '}' :: t) =
      .ok ⟨m, o + Text.byteSize (Lexeme.read c (u ++ '}' :: t)).text,
        Lexeme.rest c (u ++ '}' :: t)⟩) :
    ∃ (m' : Nesting) (ts : List Tagged), m'.openers = base ∧ m'.closed = n.closed ++ ts ∧
      readToEnd lines n o (c :: u ++ '}' :: t) =
        readToEnd lines m' (o + Text.byteSize (c :: u)) ('}' :: t) := by
  obtain ⟨hlexeme, hrest⟩ := Lexeme.read_append_closeBrace hkind hends t
  rw [hlexeme, hrest] at hread
  obtain ⟨m', ts, ho', hc', hread'⟩ :=
    h m (o + Text.byteSize (Lexeme.read c u).text) os base t ho hdue
  refine ⟨m', ts, ho', by rw [hc', hc], ?_⟩
  rw [List.cons_append, readToEnd_of_readLexeme hread, Reading.toEnd, hread',
    ← Lexeme.read_text_append_rest c u, Text.byteSize_append, Nat.add_assoc]

/-- **Reading goes over code.** -/
theorem IsCode.readsOver {due : List LexemeKind} {code : Text} (h : IsCode due code) :
    ReadsOver lines due code := by
  induction h with
  | done =>
      intro n o os base t ho hdue
      obtain rfl : os = [] := by simpa using hdue
      exact ⟨n, [], ho, by simp, rfl⟩
  | plain hkind hk hends _ ih =>
      intro n o os base t ho hdue
      have hkind' := (Lexeme.read_append_closeBrace hkind hends t).1 ▸ hkind
      obtain ⟨m, hm, hc, hread⟩ := readLexeme_plain hkind' hk
      exact ih.cons hkind hends (hm.trans ho) hdue hc hread
  | @opening due c u k closer hkind hopens _ ih =>
      intro n o os base t ho hdue
      have hends : k = .lineComment → Lexeme.rest c u ≠ [] := by
        rintro rfl
        contradiction
      have hkind' := (Lexeme.read_append_closeBrace hkind hends t).1 ▸ hkind
      obtain ⟨m, p, hp, hm, hc, hread⟩ := readLexeme_opening hkind' hopens
      have ho' : m.openers = p :: os ++ base := by rw [hm, ho, List.cons_append]
      refine ih.cons hkind hends ho' ?_ hc hread
      rw [List.map_cons, hp, hdue, List.map_cons]
  | @closing due c u k hkind _ ih =>
      intro n o os base t ho hdue
      obtain ⟨p, os, rfl, hp, hdue⟩ := List.map_eq_cons_iff.1 hdue
      have hends : k = .lineComment → Lexeme.rest c u ≠ [] := by
        rintro rfl
        cases p <;> cases hp
      have hkind' := (Lexeme.read_append_closeBrace hkind hends t).1 ▸ hkind
      obtain ⟨m, hm, hc, hread⟩ := readLexeme_closing hkind' ho hp
      exact ih.cons hkind hends hm hdue hc hread
  | template hraws _ hlast _ hcodes ih =>
      intro n o os base t ho hdue
      obtain ⟨m, ts, _, hm, hc, hread⟩ :=
        readToEnd_template hraws hcodes hlast n o (_ ++ '}' :: t)
      obtain ⟨m', ts', hm', hc', hread'⟩ := ih m _ os base t (hm.trans ho) hdue
      refine ⟨m', _, hm', by rw [hc', hc, List.append_assoc], ?_⟩
      rw [List.append_assoc, hread, hread', Text.byteSize_append, Nat.add_assoc]

end

/-! ### Templates behind a name -/

/-- A text **is a name** if it starts with a character that can begin one and goes on with characters
that can continue one. -/
def IsName : Text → Prop
  | [] => False
  | c :: t => isNameStart c ∧ ∀ d ∈ t, isNamePart d

/-- A character that begins a name is not blank. -/
theorem isInlineBlank_eq_false_of_isNameStart {c : Char} (h : isNameStart c) :
    isInlineBlank c = false := by
  by_contra hblank
  simp only [isInlineBlank, Bool.not_eq_false, Bool.or_eq_true, beq_iff_eq] at hblank
  rcases hblank with ((rfl | rfl) | rfl) | rfl <;> exact absurd h (by decide)

section

variable {lines : LineMap} {c : Char} {t u : Text} {n : Nesting} {o : Nat}

/-- A name in front of a backtick is a lexeme. -/
theorem Lexeme.body_name (h : IsName (c :: t)) :
    body c (t ++ '\x60' :: u) = (some .identifier, t) := by
  unfold body
  rw [if_neg (by simp [isInlineBlank_eq_false_of_isNameStart h.1]), if_pos h.1,
    takeWhile_append_cons rfl, List.takeWhile_eq_self_iff.2 h.2]

/-- A name at the start of a source is the chain in front of the backtick that follows it. -/
theorem readLexeme_name (lines : LineMap) (h : IsName (c :: t)) (u : Text) :
    ∃ m : Nesting, m.openers = [] ∧ m.closed = [] ∧ m.chain = some ⟨.identifier (c :: t), 0⟩ ∧
      readLexeme lines {} 0 c (t ++ '\x60' :: u) =
        .ok ⟨m, Text.byteSize (c :: t), '\x60' :: u⟩ := by
  have hbody := Lexeme.body_name (u := u) h
  have hrest : Lexeme.rest c (t ++ '\x60' :: u) = '\x60' :: u := by
    rw [Lexeme.rest, hbody, List.drop_left]
  refine ⟨((Nesting.modifyStatement (Statement.meet .identifier) {}).identifier (c :: t) 0).settle
    .identifier (c :: t), rfl, rfl, rfl, ?_⟩
  simp only [readLexeme, Lexeme.read, hrest, hbody, readCode, Nat.zero_add]

/-- Where nothing is open reading ends well. -/
theorem readToEnd_nil (h : n.openers = []) : readToEnd lines n o [] = .ok n := by
  have hlevels : n.levels = [] := List.map_eq_nil_iff.1 h
  simp [readToEnd, Nesting.innermost?, hlevels]

/-- The template that starts where the source starts is found first. -/
theorem findTemplates_of_start_eq_zero {source : Text}
    (h : readToEnd (LineMap.ofText source) {} 0 source = .ok n) {t : Tagged} (ht : t ∈ n.closed)
    (hstart : t.span.start = 0) : ∃ ts, findTemplates source = .ok (t :: ts) := by
  have hfind := findTemplates_eq_ok_iff.2 ⟨n, h, rfl⟩
  have hmem : t ∈ n.closed.mergeSort fun t u => t.span.start ≤ u.span.start :=
    List.mem_mergeSort.2 ht
  have hpairs := (pairwise_of_findTemplates hfind).2
  generalize n.closed.mergeSort _ = found at hfind hmem hpairs
  cases found with
  | nil => contradiction
  | cons first ts =>
      rcases List.mem_cons.1 hmem with rfl | hmem
      · exact ⟨ts, hfind⟩
      · have hlt := (List.rel_of_pairwise_cons hpairs hmem).1
        omega

end

/-- **A template that is written is read back.** Behind a name stand, between backticks, literal parts
that are raw text and holes between them that hold code. The first template that is found has the name
as its tag, these literal parts, and holes whose spans cover this code. -/
theorem findTemplates_written {name : Text} (hname : IsName name) {parts : List (Text × Text)}
    {last : Text} (hraws : ∀ p ∈ parts, RawText.IsRaw p.1) (hcodes : ∀ p ∈ parts, IsCode [] p.2)
    (hlast : RawText.IsRaw last) :
    let source := name ++ '\x60' :: writeParts parts last
    ∃ t ts, findTemplates source = .ok (t :: ts) ∧ t.tag = .identifier name ∧
      t.quasis.map Quasi.raw = parts.map Prod.fst ++ [last] ∧
      t.holes.map (fun h => h.span.of? source) = parts.map fun p => some p.2 := by
  intro source
  obtain _ | ⟨c, rest⟩ := name
  · exact hname.elim
  have hover : ∀ p ∈ parts, ReadsOver (LineMap.ofText source) [] p.2 := fun p hp =>
    (hcodes p hp).readsOver
  obtain ⟨n, hn, -, hchain, hread⟩ :=
    readLexeme_name (LineMap.ofText source) hname (writeParts parts last)
  obtain ⟨m, ts, comments, hm, hc, hend⟩ :=
    readToEnd_template hraws hover hlast n (Text.byteSize (c :: rest)) []
  have hall : readToEnd (LineMap.ofText source) {} 0 source = .ok m := by
    have hfirst : readToEnd (LineMap.ofText source) {} 0 source = _ := readToEnd_of_readLexeme hread
    rw [List.append_nil] at hend
    exact hfirst.trans (hend.trans (readToEnd_nil (hm.trans hn)))
  -- What has been read of the template when its closing backtick is reached has the name as its tag.
  let u : Unclosed :=
    { chain := n.chain, opening := Text.byteSize (c :: rest), leadingComments := comments }
  have hclose := Unclosed.close?_of_chain
    (u := u.addParts (LineMap.ofText source) (Text.byteSize (c :: rest) + 1) parts last)
    (Unclosed.chain_addParts.trans hchain)
    (Text.byteSize (c :: rest) + Text.byteSize ('\x60' :: writeParts parts last))
  have hmem := List.mem_append_right n.closed
    (List.mem_append_right ts (Option.mem_toList.2 hclose))
  rw [← hc] at hmem
  obtain ⟨ts, hts⟩ := findTemplates_of_start_eq_zero hall hmem rfl
  have hfront : Text.byteSize (c :: rest) + 1 = Text.byteSize (c :: rest ++ ['\x60']) := by
    rw [Text.byteSize_append]
    rfl
  have hsource : source = c :: rest ++ ['\x60'] ++ writeParts parts last ++ [] := by simp [source]
  exact ⟨_, ts, hts, rfl, Unclosed.map_raw_addParts, Unclosed.map_of?_addParts hsource hfront⟩

/-- A hole holds an arrow function whose template has a closing brace in a string in its own hole. -/
theorem findTemplates_written_arrow :
    let parts := [(['a'], "p=>b`$\x7b\x22\x7d\x22\x7d`".toList)]
    let source := "css`a$\x7bp=>b`$\x7b\x22\x7d\x22\x7d`\x7dc`".toList
    IsName "css".toList ∧ (∀ p ∈ parts, RawText.IsRaw p.1) ∧ (∀ p ∈ parts, IsCode [] p.2) ∧
      RawText.IsRaw ['c'] ∧
      ∃ t ts, findTemplates source = .ok (t :: ts) ∧ t.tag = .identifier "css".toList ∧
        t.quasis.map Quasi.raw = [['a'], ['c']] ∧
        t.holes.map (fun h => h.span.of? source) =
          [some "p=>b`$\x7b\x22\x7d\x22\x7d`".toList] := by
  intro parts source
  have hname : IsName "css".toList := by
    simp only [String.reduceToList]
    exact ⟨rfl, List.forall_mem_cons.2 ⟨rfl, List.forall_mem_singleton.2 rfl⟩⟩
  have hstring : IsCode [] ['\x22', '}', '\x22'] := .plain (k := .string) rfl rfl nofun .done
  have htemplate : IsCode [] ('\x60' :: writeParts [([], ['\x22', '}', '\x22'])] [] ++ []) :=
    .template (List.forall_mem_singleton.2 rfl) (List.forall_mem_singleton.2 hstring) rfl .done
  have hcode : IsCode [] "p=>b`$\x7b\x22\x7d\x22\x7d`".toList := by
    simp only [String.reduceToList]
    exact .plain (k := .identifier) rfl rfl nofun (.plain (k := .arrow) rfl rfl nofun
      (.plain (k := .identifier) rfl rfl nofun htemplate))
  have hraws : ∀ p ∈ parts, RawText.IsRaw p.1 := List.forall_mem_singleton.2 rfl
  have hcodes : ∀ p ∈ parts, IsCode [] p.2 := List.forall_mem_singleton.2 hcode
  have hsource : "css".toList ++ '\x60' :: writeParts parts ['c'] = source := by
    simp [parts, source, writeParts]
  have hlast : RawText.IsRaw ['c'] := rfl
  have h := findTemplates_written hname hraws hcodes hlast
  rw [hsource] at h
  exact ⟨hname, hraws, hcodes, hlast, h⟩

end StyleBlocks.Template
