import StyleBlocks.Text.Basic

/-!
# JSON values

JSON values with their objects' fields in order, and their two written forms: `Json.render` puts a
value on one line, `Json.pretty` spreads it over indented lines.
-/

namespace StyleBlocks

/-- A **JSON value**. Numbers are kept as they are written. -/
inductive Json where
  /-- The null value. -/
  | null
  /-- A truth value. -/
  | bool (b : Bool)
  /-- A number, by its numeral. -/
  | number (numeral : Text)
  /-- A string. -/
  | string (text : Text)
  /-- An array. -/
  | array (items : List Json)
  /-- An object, by its fields in order. -/
  | object (fields : List (Text × Json))
  /-- A string that names half of a surrogate pair, or an object with such a key. No text holds that, so
  it is written as null. -/
  | illFormed
deriving Inhabited

namespace Json

/-- The JSON number of a natural number. -/
def ofNat (n : Nat) : Json :=
  number (Text.ofNat n)

/-- The JSON string of a text, or null if there is none. -/
def ofText? : Option Text → Json
  | none => null
  | some t => string t

/-- The JSON array of a list. -/
def ofList {α : Type} (f : α → Json) (l : List α) : Json :=
  array (l.map f)

/-- The JSON form of a value that may be missing, which is null then. -/
def ofOption {α : Type} (f : α → Json) : Option α → Json
  | some a => f a
  | none => null

/-- The JSON object with the given fields. -/
def record (fields : List (String × Json)) : Json :=
  object (fields.map fun f => (f.1.toList, f.2))

/-! ### Strings -/

/-- The lower-case hexadecimal digit of a number below sixteen. -/
def hexDigit (n : Nat) : Char :=
  Nat.digitChar n

/-- A character as it stands in a JSON string: quotes, backslashes and control characters are
escaped, everything else stands for itself. -/
def escapeChar (c : Char) : Text :=
  match c with
  | '\x22' => ['\\', '\x22']
  | '\\' => ['\\', '\\']
  | '\x08' => ['\\', 'b']
  | '\t' => ['\\', 't']
  | '\n' => ['\\', 'n']
  | '\x0c' => ['\\', 'f']
  | '\r' => ['\\', 'r']
  | c =>
    if c.toNat < 32 then ['\\', 'u', '0', '0', hexDigit (c.toNat / 16), hexDigit (c.toNat % 16)]
    else [c]

/-- A text as a JSON string. -/
def quote (t : Text) : Text :=
  '\x22' :: t.flatMap escapeChar ++ ['\x22']

/-! ### Values on one line -/

mutual

/-- A value on one line, without blanks. -/
def render : Json → Text
  | null => "null".toList
  | bool true => "true".toList
  | bool false => "false".toList
  | number n => n
  | string t => quote t
  | array items => '[' :: renderItems items
  | object fields => '{' :: renderFields fields
  | illFormed => "null".toList

/-- The items of an array and its closing bracket. -/
def renderItems : List Json → Text
  | [] => [']']
  | [v] => v.render ++ [']']
  | v :: vs => v.render ++ ',' :: renderItems vs

/-- The fields of an object and its closing brace. -/
def renderFields : List (Text × Json) → Text
  | [] => ['}']
  | [(k, v)] => quote k ++ ':' :: v.render ++ ['}']
  | (k, v) :: fs => quote k ++ ':' :: v.render ++ ',' :: renderFields fs

end

/-! ### Values on several lines -/

/-- A line break and the indentation of the given depth, two spaces a level. -/
def breakLine (depth : Nat) : Text :=
  '\n' :: List.replicate (2 * depth) ' '

mutual

/-- A value with every item and every field on a line of its own, at the given depth. Empty arrays
and objects stay together. -/
def prettyAt (depth : Nat) : Json → Text
  | null => "null".toList
  | bool true => "true".toList
  | bool false => "false".toList
  | number n => n
  | string t => quote t
  | array [] => ['[', ']']
  | array (v :: vs) => '[' :: prettyItems depth (v :: vs) ++ breakLine depth ++ [']']
  | object [] => ['{', '}']
  | object (f :: fs) => '{' :: prettyFields depth (f :: fs) ++ breakLine depth ++ ['}']
  | illFormed => "null".toList

/-- The items of an array at the given depth. -/
def prettyItems (depth : Nat) : List Json → Text
  | [] => []
  | [v] => breakLine (depth + 1) ++ prettyAt (depth + 1) v
  | v :: vs => breakLine (depth + 1) ++ prettyAt (depth + 1) v ++ ',' :: prettyItems depth vs

/-- The fields of an object at the given depth. -/
def prettyFields (depth : Nat) : List (Text × Json) → Text
  | [] => []
  | [(k, v)] => breakLine (depth + 1) ++ quote k ++ ':' :: ' ' :: prettyAt (depth + 1) v
  | (k, v) :: fs =>
    breakLine (depth + 1) ++ quote k ++ ':' :: ' ' :: prettyAt (depth + 1) v ++ ',' ::
      prettyFields depth fs

end

/-- A value on several lines. -/
def pretty (v : Json) : Text :=
  prettyAt 0 v

end Json

end StyleBlocks
