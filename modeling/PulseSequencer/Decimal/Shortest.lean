import PulseSequencer.Binary64

/-!
# The shortest decimal that reads back

A positive double `mantissa · 2 ^ exponent` stands for every real number that rounds to it: an
interval whose ends lie half way to its neighbours, and belong to it iff the mantissa is even.
Measured in units of a sufficiently small power of ten, the value and both ends are natural numbers.
`shortest` looks for the coarsest grid of powers of ten that has a point in the interval: for one
digit, two digits, and so on, it tests the two grid points next to the value. Of two hits the nearer
is taken, and the upper one if they are equally near. Seventeen digits are always enough.
-/

namespace PulseSequencer.Decimal

/-- The number `count / 10 ^ places`. -/
structure Scaled where
  count : Nat
  places : Nat
  deriving DecidableEq, Repr

/-- How many decimal digits a number is written with. -/
def digitCount (n : Nat) : Nat :=
  (Nat.toDigits 10 n).length

/-- The numbers that round to a double, in units of `10 ^ -places`. -/
structure Interval where
  low : Nat
  value : Nat
  high : Nat
  closed : Bool
  places : Nat
  deriving DecidableEq, Repr

namespace Interval

/-- The interval of `mantissa · 2 ^ exponent`. A quarter of the spacing above the value is the unit
of the count before it is scaled to a power of ten; below a power of two the spacing is halved. -/
def ofBinary (mantissa : Nat) (exponent : Int) : Interval :=
  let places := (2 - exponent).toNat
  let unit := Nat.pow 2 (exponent - 2).toNat * Nat.pow 5 places
  let narrow := mantissa = Binary64.hiddenBit ∧ Binary64.leastExponent < exponent
  { low := (4 * mantissa - if narrow then 1 else 2) * unit
    value := 4 * mantissa * unit
    high := (4 * mantissa + 2) * unit
    closed := mantissa % 2 = 0
    places := places }

/-- Does the count lie in the interval? -/
def contains (i : Interval) (n : Nat) : Bool :=
  if i.closed then i.low ≤ n && n ≤ i.high else i.low < n && n < i.high

/-- The point of the grid `0, step, 2 · step, …` next to the value that lies in the interval. -/
def hit? (i : Interval) (step : Nat) : Option Nat :=
  let below := i.value / step * step
  let above := below + step
  match i.contains below, i.contains above with
  | true, true => some (if i.value - below < above - i.value then below else above)
  | true, false => some below
  | false, true => some above
  | false, false => none

/-- The shortest decimal of the interval: the first hit among the grids of 1, 2, …, 17 digits. -/
def shortest (i : Interval) : Scaled :=
  let digits := digitCount i.value
  let steps := (List.range 17).map fun n => Nat.pow 10 (digits - (n + 1))
  { count := (steps.findSome? i.hit?).getD i.value
    places := i.places }

end Interval

/-- The shortest decimal that reads back as `mantissa · 2 ^ exponent`. -/
def shortest (mantissa : Nat) (exponent : Int) : Scaled :=
  if mantissa = 0 then ⟨0, 0⟩ else (Interval.ofBinary mantissa exponent).shortest

end PulseSequencer.Decimal
