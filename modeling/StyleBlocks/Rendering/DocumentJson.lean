import StyleBlocks.Document.Basic
import StyleBlocks.Json.Basic
import StyleBlocks.Template.Basic

/-!
# Documents as JSON

The JSON form of documents and of everything in them, with the fields in a fixed order.
-/

namespace StyleBlocks

/-! ### Places -/

/-- A position as JSON. -/
def Position.toJson (p : Position) : Json :=
  .record [("line", .ofNat p.line), ("column", .ofNat p.column)]

/-- A span as JSON. -/
def Span.toJson (s : Span) : Json :=
  .record [("start", .ofNat s.start), ("end", .ofNat s.stop)]

/-- A range as JSON. -/
def Range.toJson (r : Range) : Json :=
  .record [("span", r.span.toJson), ("start", r.start.toJson), ("end", r.stop.toJson)]

/-! ### Templates -/

namespace Template

/-- The shape of a tag as JSON. -/
def Tag.toJson : Tag → Json
  | identifier name => .record [("Identifier", .string name)]
  | member object property =>
    .record [("Member", .record [("object", object.toJson), ("property", .string property)])]
  | call callee => .record [("Call", callee.toJson)]
  | computed object => .record [("Computed", object.toJson)]
  | other => .string "Other".toList

/-- A literal part of a template as JSON. -/
def Quasi.toJson (q : Quasi) : Json :=
  .record [("range", q.span.toJson), ("start", q.start.toJson), ("end", q.stop.toJson),
    ("raw", .string q.raw)]

/-- A hole as JSON. -/
def Hole.toJson (h : Hole) : Json :=
  .record [("range", h.span.toJson), ("start", h.start.toJson)]

/-- The fields of a template's JSON object. -/
def Tagged.jsonFields (t : Tagged) : List (String × Json) :=
  [("tag", t.tag.toJson), ("range", t.span.toJson), ("quasis", .ofList Quasi.toJson t.quasis),
    ("expressions", .ofList Hole.toJson t.holes),
    ("leading_comments", .ofList .string t.leadingComments)]

end Template

/-! ### Style sheets -/

namespace Sheet

/-- The name of a raw key in JSON. -/
def RawKey.render : RawKey → Text
  | before => "before".toList
  | between => "between".toList
  | after => "after".toList
  | afterName => "after-name".toList
  | prop => "prop".toList
  | value => "value".toList

/-- A correction as JSON. -/
def Correction.toJson (c : Correction) : Json :=
  .record [("original", .string c.original), ("corrected", .string c.corrected)]

/-- The corrections of a node as JSON. -/
def Corrections.toJson (cs : Corrections) : Json :=
  .object (cs.toList.map fun e => (e.1.render, e.2.toJson))

mutual

/-- A node as JSON. -/
def Node.toJson : Node → Json
  | .rule h ns =>
    .record [("type", .string "rule".toList), ("selector", .string h.selector),
      ("nodes", .array (nodesToJson ns)), ("mixin", .bool h.mixin),
      ("raws", .record [("before", .ofText? h.before), ("between", .ofText? h.between),
        ("after", .ofText? h.after), ("semicolon", .bool h.semicolon)]),
      ("source", Json.ofOption Range.toJson h.source), ("corrected", h.corrections.toJson)]
  | .atRule h ns => atRuleToJson h (.array (nodesToJson ns))
  | .atStatement h => atRuleToJson h .null
  | .declaration d =>
    .record [("type", .string "declaration".toList), ("prop", .string d.prop),
      ("value", .string d.value),
      ("raws", .record [("before", .ofText? d.before), ("between", .ofText? d.between),
        ("after", .ofText? d.after)]),
      ("source", Json.ofOption Range.toJson d.source), ("corrected", d.corrections.toJson)]
  | .comment c =>
    .record [("type", .string "comment".toList), ("text", .string c.text),
      ("inline", .bool c.inline), ("raws", .record [("before", .ofText? c.before)]),
      ("source", Json.ofOption Range.toJson c.source), ("corrected", c.corrections.toJson)]

/-- An at-rule as JSON, given the JSON form of its block. -/
def atRuleToJson (h : AtRuleHead) (nodes : Json) : Json :=
  .record [("type", .string "at-rule".toList), ("name", .string h.name),
    ("params", .string h.params), ("nodes", nodes),
    ("raws", .record [("before", .ofText? h.before), ("after_name", .ofText? h.afterName),
      ("between", .ofText? h.between), ("after", .ofText? h.after),
      ("semicolon", .bool h.semicolon)]),
    ("source", Json.ofOption Range.toJson h.source), ("corrected", h.corrections.toJson)]

/-- Nodes as JSON. -/
def nodesToJson : List Node → List Json
  | [] => []
  | n :: ns => n.toJson :: nodesToJson ns

end

end Sheet

/-! ### Blocks -/

/-- An extent as JSON. -/
def Extent.toJson (e : Extent) : Json :=
  .record [("offset", .ofNat e.bytes), ("lines", .ofNat e.lines)]

/-- What was taken away at the edges of a text, as JSON. -/
def Edges.toJson (e : Edges) : Json :=
  .record [("prefix", e.front.toJson), ("suffix", e.back.toJson)]

/-- Indentations as JSON. -/
def Indentations.toJson (i : Indentations) : Json :=
  .record [("lines", .object (i.lines.map fun e => (Text.ofNat e.1, .string e.2))),
    ("trailing", .ofText? i.trailing)]

/-- What ties a block to its host, as JSON. -/
def BlockConfig.toJson (c : BlockConfig) : Json :=
  .record [("source_offsets", c.hostEdges.toJson), ("css_offsets", c.styleEdges.toJson),
    ("base_indentations", c.indentations.toJson),
    ("expression_strings", .ofList .string c.expressions)]

/-- A style block as JSON. -/
def StyleBlock.toJson (b : StyleBlock) : Json :=
  let r := b.root
  .record [("nodes", .array (Sheet.nodesToJson r.nodes)),
    ("raws", .record [("after", .ofText? r.after), ("semicolon", .bool r.semicolon)]),
    ("source", Json.ofOption Range.toJson r.source), ("corrected", r.corrections.toJson),
    ("from", .ofText? r.origin), ("block", Json.ofOption BlockConfig.toJson b.config),
    ("leading_text", .string b.leading), ("trailing_text", .ofText? b.trailing)]

/-- The reason why a template was set aside, as JSON. -/
def SkipReason.toJson : SkipReason → Json
  | malformed e => .record [("kind", .string "parse".toList), ("detail", .string e.message)]
  | nested => .record [("kind", .string "nested".toList)]

/-- A template that was set aside, as JSON. -/
def SkippedBlock.toJson (s : SkippedBlock) : Json :=
  .record [("range", s.range.toJson), ("reason", s.reason.toJson)]

/-- A severity as JSON. -/
def Severity.toJson : Severity → Json
  | error => .string "error".toList
  | warning => .string "warning".toList
  | information => .string "information".toList

/-- A diagnostic as JSON. -/
def Diagnostic.toJson (d : Diagnostic) : Json :=
  .record [("range", d.range.toJson), ("severity", d.severity.toJson),
    ("message", .string d.message), ("source", .string d.source)]

/-- A document as JSON. -/
def Document.toJson (d : Document) : Json :=
  .record [("source", .string d.source), ("roots", .ofList StyleBlock.toJson d.blocks),
    ("skipped", .ofList SkippedBlock.toJson d.skipped)]

end StyleBlocks
