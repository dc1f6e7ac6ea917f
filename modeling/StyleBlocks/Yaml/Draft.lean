import StyleBlocks.Yaml.Token

/-!
# YAML documents under construction

A **draft** is a document of which the first tokens have been read: the collections that are open, and
the properties that belong to the next node. `Draft.step?` acts on a token.

Where a node is due and a token comes that begins none, the node is empty if it has properties or need
not be written. A question mark between brackets is different: if no key follows it, it takes the
colon, the comma or the bracket that does.

The number of an anchor is how many names had been given to nodes when its own node began, so a name
that is given again can share its number with another name.
-/

namespace StyleBlocks.Yaml

/-- What may stand in front of a node. -/
structure Properties where
  /-- The name by which aliases refer to the node. -/
  anchor : Option Text := none
  /-- The tag. -/
  tag : Option Text := none
deriving DecidableEq

/-- Properties put together, if none of them is there twice. -/
def Properties.merge? (p q : Properties) : Option Properties :=
  if (p.anchor.isSome ∧ q.anchor.isSome) ∨ (p.tag.isSome ∧ q.tag.isSome) then none
  else some ⟨p.anchor <|> q.anchor, p.tag <|> q.tag⟩

/-! ### Open collections -/

/-- How a collection is written. -/
inductive Bounds where
  /-- By indentation. -/
  | block
  /-- By dashes that stand at the column of the keys around them. -/
  | dashes
  /-- Between brackets or braces. -/
  | flow
deriving DecidableEq

/-- The items of a sequence or the entries of a mapping, newest first. -/
inductive Contents where
  /-- Items. -/
  | items (items : List Yaml)
  /-- Entries. -/
  | entries (entries : List (Yaml × Yaml))

namespace Contents

/-- Whether these are items. -/
def isSequence : Contents → Bool
  | items _ => true
  | entries _ => false

/-- Adds an item, or an entry of which only the key is written. -/
def add (v : Yaml) : Contents → Contents
  | items vs => items (v :: vs)
  | entries es => entries ((v, nothing) :: es)

/-- Adds an entry, or an item that is a mapping with one entry. -/
def addPair (k v : Yaml) : Contents → Contents
  | items vs => items (mapping [(k, v)] :: vs)
  | entries es => entries ((k, v) :: es)

/-- The collection. -/
def toYaml : Contents → Yaml
  | items vs => sequence vs.reverse
  | entries es => mapping es.reverse

end Contents

/-- What is due in a collection. -/
inductive Stage where
  /-- An item, an entry or the end. -/
  | entry
  /-- An item, after its dash. -/
  | item
  /-- A key, after its question mark. -/
  | key
  /-- The colon after a key, if there is one. -/
  | colon (key : Yaml)
  /-- The value for a key. -/
  | value (key : Yaml)
  /-- A comma or the end. -/
  | complete

/-- A collection that is open. -/
structure Frame where
  /-- How it is written. -/
  bounds : Bounds
  /-- The number of its anchor. -/
  anchor : Option Nat
  /-- What it holds. -/
  contents : Contents
  /-- What is due. -/
  stage : Stage

namespace Frame

/-- Whether a node can stand next. -/
def isDue (f : Frame) : Bool :=
  match f.stage with
  | .item | .key | .value _ => true
  | .entry => f.bounds == .flow
  | .colon _ | .complete => false

/-- Whether a node is due that need not be written. -/
def mayOmit (f : Frame) : Bool :=
  match f.stage with
  | .item | .value _ => true
  | .key => !(f.bounds == .flow && f.contents.isSequence)
  | .entry | .colon _ | .complete => false

/-- Changes the contents by the item or entry that is complete now. -/
def complete (change : Contents → Contents) (f : Frame) : Frame :=
  { f with contents := change f.contents, stage := if f.bounds = .flow then .complete else .entry }

/-- Puts a value where one is due. -/
def accept? (v : Yaml) (f : Frame) : Option Frame :=
  match f.stage with
  | .entry => if f.bounds = .flow then some (f.complete (·.add v)) else none
  | .item => some (f.complete (·.add v))
  | .key => some { f with stage := .colon v }
  | .value k => some (f.complete (·.addPair k v))
  | .colon _ | .complete => none

/-- Completes an entry for which no colon is written. -/
def omitColon (f : Frame) : Frame :=
  match f.stage with
  | .colon k => f.complete (·.addPair k nothing)
  | _ => f

/-- Whether a token ends the collection. -/
def isEnd (f : Frame) (k : Token) : Bool :=
  (f.stage matches .entry || f.stage matches .complete) &&
    match f.bounds with
    | .block => k == .endBlock
    | .dashes => false
    | .flow => k == if f.contents.isSequence then .closeSequence else .closeMapping

/-- What is due after a token that begins no node. -/
def next? (f : Frame) (k : Token) : Option Stage :=
  match f.stage, k with
  | .entry, .dash => if f.bounds ≠ .flow ∧ f.contents.isSequence then some .item else none
  | .entry, .key => if f.bounds = .flow ∨ !f.contents.isSequence then some .key else none
  | .colon k, .value => some (.value k)
  | .key, .value | .key, .comma | .key, .closeSequence => some (.colon nothing)
  | .complete, .comma => some .entry
  | _, _ => none

/-- The collection, with its anchor. -/
def toYaml (f : Frame) : Yaml :=
  f.contents.toYaml.withAnchor f.anchor

end Frame

/-! ### Drafts -/

/-- A document under construction. -/
structure Draft where
  /-- The open collections, innermost first. -/
  frames : List Frame := []
  /-- The value of the document, once it is complete. -/
  value : Option Yaml := none
  /-- The properties of the next node. -/
  properties : Properties := {}
  /-- The names of anchors with their numbers. -/
  anchors : List (Text × Nat) := []
  /-- What the handles of tags are short for. -/
  handles : List (Text × Text) := []

namespace Draft

/-- Whether a node can stand next. -/
def isDue (d : Draft) : Bool :=
  match d.frames with
  | f :: _ => f.isDue
  | [] => d.value.isNone

/-- Whether a block collection can stand where a node can. -/
def inBlock (d : Draft) : Bool :=
  d.frames.head?.all (·.bounds ≠ .flow)

/-- Whether a sequence can stand next whose dashes are at the column of the keys around it. -/
def takesDashes (d : Draft) : Bool :=
  d.isDue && d.frames.head?.any fun f => f.bounds == .block && !f.contents.isSequence

/-- Puts a value where one is due. -/
def accept? (v : Yaml) (d : Draft) : Option Draft :=
  match d.frames, d.value with
  | f :: fs, _ => (f.accept? v).map fun g => { d with frames := g :: fs }
  | [], none => some { d with value := some v }
  | [], some _ => none

/-- Adds properties of the next node. -/
def property? (properties : Properties) (d : Draft) : Option Draft := do
  guard d.isDue
  return { d with properties := ← d.properties.merge? properties }

/-- Begins the next node: the number of its anchor, and the draft without its properties. -/
def begin (d : Draft) : Option Nat × Draft :=
  match d.properties.anchor with
  | none => (none, { d with properties := {} })
  | some name =>
    let number := d.anchors.length
    let others := d.anchors.filter fun a => a.1 ≠ name
    (some number, { d with properties := {}, anchors := (name, number) :: others })

/-- Adds a scalar with the properties that stand in front of it. -/
def scalar? (plain : Bool) (t : Text) (d : Draft) : Option Draft :=
  let (anchor, next) := d.begin
  next.accept? ((scalar plain d.properties.tag t).withAnchor anchor)

/-- Adds the value that an alias stands for. It has no properties. -/
def alias? (name : Text) (d : Draft) : Option Draft := do
  guard (d.properties = {})
  d.accept? (.alias (← d.anchors.lookup name))

/-- Opens a collection. The tags of collections say nothing that settings need. -/
def open? (bounds : Bounds) (contents : Contents) (stage : Stage) (d : Draft) : Option Draft :=
  if d.isDue then
    let (anchor, next) := d.begin
    some { next with frames := ⟨bounds, anchor, contents, stage⟩ :: next.frames }
  else none

/-- Opens a block collection. -/
def openBlock? (contents : Contents) (d : Draft) : Option Draft :=
  if d.inBlock then d.open? .block contents .entry else none

/-- Leaves the node empty that is due. -/
def omit? (d : Draft) : Option Draft :=
  if d.properties ≠ {} then d.scalar? true []
  else if d.frames.head?.any (·.mayOmit) then d.accept? nothing
  else some d

/-- Ends the innermost collection. -/
def close? (d : Draft) : Option Draft :=
  match d.frames with
  | f :: fs => { d with frames := fs }.accept? f.toYaml
  | [] => none

/-- Ends the innermost collection, in which no item is due, if its dashes stand at the column of the keys
around it. -/
def closeDashes? (d : Draft) : Option Draft :=
  if d.frames.head?.any (·.bounds = .dashes) then d.close? else some d

/-- Acts on a token in a collection in which no node has to be omitted. -/
def advance? (k : Token) (d : Draft) : Option Draft :=
  match d.frames with
  | [] => none
  | f :: fs =>
    let f := if k = .value then f else f.omitColon
    if f.isEnd k then { d with frames := f :: fs }.close?
    else (f.next? k).map fun s => { d with frames := { f with stage := s } :: fs }

/-- Acts on a token that begins no node. -/
def proceed? (k : Token) (d : Draft) : Option Draft := do
  let d ← d.omit?
  let d ← if k = .dash then some d else d.closeDashes?
  d.advance? k

/-- The handles that every document has. -/
def defaultHandles : List (Text × Text) :=
  [(['!'], ['!']), (['!', '!'], "tag:yaml.org,2002:".toList)]

/-- The whole of a tag. -/
def tag? (t : Tag) (d : Draft) : Option Text :=
  if t.handle = [] then some t.suffix
  else (d.handles.lookup t.handle <|> defaultHandles.lookup t.handle).map (· ++ t.suffix)

/-- Acts on a token. -/
def step? (d : Draft) (k : Token) : Option Draft :=
  match k with
  | .anchor name => d.property? { anchor := some name }
  | .tag t => do d.property? { tag := some (← d.tag? t) }
  | .alias name => d.alias? name
  | .scalar plain t => d.scalar? plain t
  | .lines t => d.scalar? false t
  | .openSequence => d.open? .flow (.items []) .entry
  | .openMapping => d.open? .flow (.entries []) .entry
  | .beginSequence => d.openBlock? (.items [])
  | .beginMapping => d.openBlock? (.entries [])
  | .dash => if d.takesDashes then d.open? .dashes (.items []) .item else d.proceed? k
  | k => d.proceed? k

/-- The value of a document all of whose tokens have been read. -/
def finish? (d : Draft) : Option Yaml := do
  let d ← d.omit?
  if d.frames.isEmpty then d.value else none

end Draft

end StyleBlocks.Yaml
