import StyleBlocks.Text.Basic

/-!
# Catalogs

A **catalog** holds values under names, at most one under each. Dialects, settings and formats are all
found by name in catalogs. The names are kept in order, which is the order of their UTF-8 bytes.

## Main statements

* `Catalog.get?_insert`: after an insertion, the name has the new value and other names have theirs.
-/

namespace StyleBlocks

/-- Values under names. -/
structure Catalog (α : Type) where
  /-- The names and values, ordered by name. -/
  entries : List (Text × α) := []

namespace Catalog

variable {α : Type}

/-- A catalog without entries. -/
instance : EmptyCollection (Catalog α) := ⟨⟨[]⟩⟩

/-- Puts an entry in its place in an ordered list, in place of another under its name. -/
def insertEntry (name : Text) (value : α) : List (Text × α) → List (Text × α)
  | [] => [(name, value)]
  | (n, v) :: entries =>
    if name = n then (name, value) :: entries
    else if name < n then (name, value) :: (n, v) :: entries
    else (n, v) :: insertEntry name value entries

/-- Puts a value under a name, in place of another that was there. -/
def insert (name : Text) (value : α) (c : Catalog α) : Catalog α where
  entries := insertEntry name value c.entries

/-- The value under a name. -/
def get? (c : Catalog α) (name : Text) : Option α :=
  c.entries.lookup name

/-- Whether there is a value under a name. -/
def contains (c : Catalog α) (name : Text) : Bool :=
  (c.get? name).isSome

/-- The names in order. -/
def names (c : Catalog α) : List Text :=
  c.entries.map Prod.fst

/-- The number of entries. -/
def size (c : Catalog α) : Nat :=
  c.entries.length

/-- The catalog of a list of names and values; of two values under one name the later stays. -/
def ofList (l : List (Text × α)) : Catalog α :=
  l.foldl (fun c e => c.insert e.1 e.2) ∅

/-- An entry in front is found by its own name and hides no other one. -/
theorem lookup_cons_eq (m n : Text) (v : α) (entries : List (Text × α)) :
    List.lookup m ((n, v) :: entries) = if m = n then some v else List.lookup m entries := by
  rw [List.lookup_cons]
  by_cases h : m = n
  · simp [h]
  · simp [h, beq_eq_false_iff_ne.2 h]

/-- After an insertion, the name has the new value and every other name has the one it had. -/
theorem get?_insert (name m : Text) (value : α) (c : Catalog α) :
    (c.insert name value).get? m = if m = name then some value else c.get? m := by
  obtain ⟨entries⟩ := c
  simp only [get?, insert]
  induction entries with
  | nil => by_cases h : m = name <;> simp [insertEntry, lookup_cons_eq, h]
  | cons e entries ih =>
    obtain ⟨n, v⟩ := e
    simp only [insertEntry]
    split
    · next hn => subst hn; by_cases h : m = name <;> simp [lookup_cons_eq, h]
    · next hn =>
      split
      · by_cases h : m = name <;> simp [lookup_cons_eq, h]
      · simp only [lookup_cons_eq, ih]
        by_cases h : m = n
        · subst h
          simp [Ne.symm hn]
        · simp [h]

end Catalog

end StyleBlocks
