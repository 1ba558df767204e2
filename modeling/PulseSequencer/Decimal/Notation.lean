import PulseSequencer.Decimal.Shortest

/-!
# Doubles as text

Three notations of a double. `text` is the shortest decimal that reads back, always positional and
without a trailing `.0`. `wholeText` is the nearest integer and `scientificText` has two significant
digits and an exponent; both round the exact binary value, ties to even. The sign of a negative zero
is written, and `NaN`, `inf` and `-inf` stand for what is not finite.
-/

namespace PulseSequencer.Decimal

/-- Writes `count / 10 ^ places` with as many decimal places as it needs. -/
def Scaled.text (s : Scaled) : String :=
  let unit := Nat.pow 10 s.places
  let whole := s.count / unit
  let digits := Nat.toDigits 10 (s.count % unit)
  let padded := List.replicate (s.places - digits.length) '0' ++ digits
  let fraction := (padded.reverse.dropWhile (· == '0')).reverse
  if fraction.isEmpty then whole.repr else whole.repr ++ "." ++ String.ofList fraction

/-- Writes a double, given how to write the magnitude of a finite one. -/
def signed (magnitude : Nat → Int → String) (x : Float) : String :=
  match Binary64.decode x with
  | .nan => "NaN"
  | .infinite negative => if negative then "-inf" else "inf"
  | .finite negative mantissa exponent =>
    (if negative then "-" else "") ++ magnitude mantissa exponent

/-- The shortest decimal that reads back. -/
def text (x : Float) : String :=
  signed (fun mantissa exponent => (shortest mantissa exponent).text) x

/-- The nearest integer, ties to even. -/
def wholeText (x : Float) : String :=
  signed (fun mantissa exponent => (Binary64.roundScaled mantissa exponent).repr) x

/-- The magnitude with one digit before the point, one after it, and a power of ten. -/
def scientific (mantissa : Nat) (exponent : Int) : String :=
  if mantissa = 0 then "0.0e0" else
  let i := Interval.ofBinary mantissa exponent
  let digits := digitCount i.value
  let rounded := halfEvenDiv (i.value * 10) (Nat.pow 10 (digits - 1))
  let power : Int := digits - 1 - i.places
  -- rounding up from 9.9… gives one digit more
  let (leading, power) := if rounded = 100 then (10, power + 1) else (rounded, power)
  (leading / 10).repr ++ "." ++ (leading % 10).repr ++ "e" ++ toString power

/-- Two significant digits and an exponent, ties to even. -/
def scientificText (x : Float) : String :=
  signed scientific x

end PulseSequencer.Decimal
