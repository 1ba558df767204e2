import PulseSequencer.Arith.Rounding

/-!
# Doubles as dyadic numbers

A double is read off its bits as `± mantissa · 2 ^ exponent`. The conversions between doubles and
words are stated on that form: `toWord` drops the fraction, `roundToWord` rounds it to the nearest
integer with ties to even, and both saturate: what is negative or no number becomes 0, what is too
large becomes the largest word.
-/

namespace PulseSequencer.Binary64

/-- What a double denotes. A finite one is `± mantissa · 2 ^ exponent`. -/
inductive Decoded where
  | nan
  | infinite (negative : Bool)
  | finite (negative : Bool) (mantissa : Nat) (exponent : Int)
  deriving DecidableEq, Repr

/-- The exponent of the doubles nearest to zero. -/
def leastExponent : Int := -1074

/-- The mantissa bit that every normal double has, `2 ^ 52`. -/
def hiddenBit : Nat := 0x10000000000000

/-- Reads a double off its bits: sign, 11 bits of biased exponent, 52 bits of fraction. -/
def decode (x : Float) : Decoded :=
  let bits := x.toBits.toNat
  let negative := bits.testBit 63
  let biased := bits / hiddenBit % 2048
  let fraction := bits % hiddenBit
  if biased = 2047 then
    if fraction = 0 then .infinite negative else .nan
  else if biased = 0 then
    .finite negative fraction leastExponent
  else
    .finite negative (hiddenBit + fraction) (biased - 1 + leastExponent)

/-- The integer part of `mantissa · 2 ^ exponent`. -/
def floorScaled (mantissa : Nat) (exponent : Int) : Nat :=
  if 0 ≤ exponent then mantissa <<< exponent.toNat else mantissa >>> (-exponent).toNat

/-- The integer nearest to `mantissa · 2 ^ exponent`, ties to even. -/
def roundScaled (mantissa : Nat) (exponent : Int) : Nat :=
  if 0 ≤ exponent then mantissa <<< exponent.toNat
  else halfEvenDiv mantissa (1 <<< (-exponent).toNat)

/-- Applies a conversion of the dyadic form to a double and saturates the result to a word. -/
def convert (f : Nat → Int → Nat) (x : Float) : Nat :=
  match decode x with
  | .nan | .infinite true | .finite true _ _ => 0
  | .infinite false => maxWord
  | .finite false mantissa exponent => Word.saturate (f mantissa exponent)

/-- Drops the fraction of a double, saturating to a word. -/
def toWord (x : Float) : Nat :=
  convert floorScaled x

/-- Rounds a double to the nearest integer, ties to even, saturating to a word. -/
def roundToWord (x : Float) : Nat :=
  convert roundScaled x

/-- The double nearest to a natural number. -/
def ofNat (n : Nat) : Float :=
  Float.ofNat n

/-- Is the double a finite number above zero? -/
def isPositive (x : Float) : Bool :=
  x.isFinite && decide (0 < x)

/-- Multiplies `acc` by `base ^ n`, squaring the base once per binary digit of `n`. The order of the
products is part of the result, because each of them is rounded. -/
def mulPow (acc base : Float) (n : Nat) : Float :=
  let acc := if n % 2 = 1 then acc * base else acc
  if n < 2 then acc else mulPow acc (base * base) (n / 2)

/-- The power of ten by repeated squaring; a negative exponent gives the inverse of the positive
power. -/
def tenPow : Int → Float
  | .ofNat n => mulPow 1 10 n
  | .negSucc n => 1 / mulPow 1 10 (n + 1)

theorem convert_lt (f : Nat → Int → Nat) (x : Float) : convert f x < wordLimit := by
  unfold convert
  split
  · decide
  · decide
  · decide
  · decide
  · exact Word.saturate_lt _

theorem roundToWord_lt (x : Float) : roundToWord x < wordLimit := convert_lt _ x

end PulseSequencer.Binary64
