/-!
# Word arithmetic

Counts of nanoseconds, cycles and clock ticks are natural numbers that have to fit a 64-bit word.
The operations here compute in `Nat` and fail with an `ArithmeticFault` where the exact result
leaves the word or does not exist, so that no later definition has to speak about wrap-around.
-/

namespace PulseSequencer

/-- The number of values of a 64-bit word, `2 ^ 64`: every word is below it. -/
def wordLimit : Nat := 0x10000000000000000

/-- The largest value of a 64-bit word. -/
def maxWord : Nat := wordLimit - 1

/-- Why an integer operation has no result. -/
inductive ArithmeticFault where
  | divisionByZero
  | overflow
  deriving DecidableEq, Repr

namespace Word

/-- Passes on a value that fits a word. -/
def fit (n : Nat) : Except ArithmeticFault Nat :=
  if n < wordLimit then .ok n else .error .overflow

/-- The exact product, if it fits a word. -/
def mul (a b : Nat) : Except ArithmeticFault Nat :=
  fit (a * b)

/-- The quotient rounded down, for a nonzero divisor. -/
def div (a b : Nat) : Except ArithmeticFault Nat :=
  if b = 0 then .error .divisionByZero else .ok (a / b)

/-- Brings a value into the range of a word, from above. -/
def saturate (n : Nat) : Nat :=
  min n maxWord

theorem saturate_lt (n : Nat) : saturate n < wordLimit := by
  simp only [saturate, maxWord, wordLimit]
  omega

theorem fit_eq_ok_iff {n m : Nat} : fit n = .ok m ↔ n < wordLimit ∧ n = m := by
  unfold fit
  split
  · simp_all
  · simp_all only [reduceCtorEq, false_and]

end Word

end PulseSequencer
