import StyleBlocks.Proofs.Sheet.ParseSpelling
import StyleBlocks.Sheet.Dialect

/-!
# Parsing and printing lose nothing

A style sheet that was parsed from a text is printed as that text, in every grammar: printing as it
is indents by nothing, so the fragments of the nodes are the texts of the tokens they spell, and
what is left is what stands at the end of the style sheet.

## Main results

* `render_of_parse`: printing a parsed style sheet gives the text back.
-/

namespace StyleBlocks.Sheet

open Token (texts)

/-- **Parsing and printing lose nothing**: in every grammar, a style sheet is printed as the text it
was parsed from. -/
theorem render_of_parse {g : Grammar} {t : Text} {root : Root} (h : parse g t = .ok root) :
    root.render = t := by
  obtain ⟨done, pend, htokens, hafter, -, hprinted⟩ := spells_of_parse (Rendering.plain_indents t) h
  obtain rfl := Token.texts_of_tokenize htokens
  have hnodes : Fragment.texts (({} : Printer).nodes 0 true root.semicolon root.nodes) =
    texts done := by
    rcases hprinted with ⟨rfl, hnil⟩ | ⟨-, hspells⟩
    · simp [hnil, Printer.nodes, Fragment.texts]
    · simpa [Rendering.plain] using hspells.texts_eq
  rw [Root.render, Printer.root, Fragment.texts_append, Fragment.texts_emit, hnodes, hafter]
  simp [Printer.lookUp, Overrides.none]

/-- A style sheet with a bare statement, a stray semicolon and a declaration that lacks its
semicolon is printed as it was. -/
theorem render_of_parse_bareStatement :
    ∃ root, parse Dialect.less.grammar "a \x7b .b() ;; c : d\n\x7d /**/ e: f ".toList = .ok root ∧
      root.render = "a \x7b .b() ;; c : d\n\x7d /**/ e: f ".toList := by
  have hparses : (parse Dialect.less.grammar
      "a \x7b .b() ;; c : d\n\x7d /**/ e: f ".toList).isOk = true := by decide +kernel
  cases h : parse Dialect.less.grammar "a \x7b .b() ;; c : d\n\x7d /**/ e: f ".toList with
  | error e =>
      rw [h] at hparses
      contradiction
  | ok root => exact ⟨root, rfl, render_of_parse h⟩

end StyleBlocks.Sheet
