import PulseSequencer.Arith.Word

/-!
# Common divisors and multiples

The greatest common divisor of a list, and its least common multiple as long as that fits a word.
Zero takes part as usual: it divides nothing else away (`gcd 0 n = n`), and a least common multiple
with it is zero.
-/

namespace PulseSequencer

/-- The greatest common divisor of all values; 0 for the empty list. -/
def gcdAll (values : List Nat) : Nat :=
  values.foldl Nat.gcd 0

/-- The least common multiple of two values, if it fits a word. -/
def lcm? (a b : Nat) : Option Nat :=
  if a = 0 ∨ b = 0 then
    some 0
  else
    let product := a / Nat.gcd a b * b
    if product < wordLimit then some product else none

/-- The least common multiple of all values, if it fits a word; 1 for the empty list. -/
def lcmAll? (values : List Nat) : Option Nat :=
  values.foldlM lcm? 1

end PulseSequencer
