/-!
Widths of fields and windows, and the sums of positions and widths.
-/

namespace BitTemplate

/-- Positions, offsets and widths are words below this number. -/
def wordSize : Nat := 1 <<< 64

/-- The sum of two words, which is a word again. -/
def wordSum (a b : Nat) : Nat :=
  (a + b) % wordSize

theorem wordSum_eq {a b : Nat} (small : a + b < wordSize) : wordSum a b = a + b :=
  Nat.mod_eq_of_lt small

/-- A number of bits, or everything up to the end of the data. -/
inductive Width where
  | bits (count : Nat)
  | rest
deriving DecidableEq, Repr

/-- The text of a width in a pattern. -/
def Width.text : Width → String
  | .bits count => toString count
  | .rest => "$"

end BitTemplate
