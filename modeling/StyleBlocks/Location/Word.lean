/-!
# Words

Offsets, lines and columns are counted in words of 64 bits. A count that runs past the last word goes on
from zero, and one that is taken down past zero goes on from the last word. In a signed word the upper
half of the words are the numbers below zero.

No text is so long that its own offsets come near these limits. They show only where a place is named that
lies in no text.
-/

namespace StyleBlocks.Word

/-- How many words there are. -/
def count : Nat :=
  UInt64.size

/-- The number from which on a signed word is below zero. No text in memory has as many bytes. -/
def signedLimit : Nat :=
  UInt64.size / 2

/-- The word that a whole number comes to. -/
def ofInt (n : Int) : Nat :=
  (n % count).toNat

/-- The signed word that a whole number comes to. -/
def signed (n : Int) : Int :=
  n.bmod count

/-- Half of the words stand for numbers from zero on in a signed word. -/
theorem count_eq : count = 2 * signedLimit :=
  rfl

/-- A number that is a word comes to itself. -/
theorem ofInt_natCast {n : Nat} (h : n < count) : ofInt n = n := by
  have : (n : Int) % count = n := Int.emod_eq_of_lt (by omega) (by omega)
  simp [ofInt, this]

/-- A number that is a signed word comes to itself. -/
theorem signed_eq_self {n : Int} (hl : -signedLimit ≤ n) (hu : n < signedLimit) : signed n = n :=
  Int.bmod_eq_of_le (by rw [count_eq]; omega) (by rw [count_eq]; omega)

end StyleBlocks.Word
