import PulseSequencer.Binary64

/-!
# Reading doubles

A double is written as an optional sign followed by `inf`, `infinity` or `nan` in any case, or by
digits with an optional point, at least one digit beside it, and an optional exponent. `read` takes
the whole text and rounds the exact decimal to the nearest double.
-/

namespace PulseSequencer.Decimal

/-- Why a text is no double. -/
inductive ReadFault where
  | empty
  | invalid
  deriving DecidableEq, Repr

/-- The wording of a fault. -/
def ReadFault.message : ReadFault → String
  | .empty => "cannot parse float from empty string"
  | .invalid => "invalid float literal"

/-- The digits a text starts with, and what follows them. -/
def spanDigits (cs : List Char) : List Char × List Char :=
  cs.span Char.isDigit

/-- The double nearest to `digits · 10 ^ exponent`. A decimal beyond every double, on either side,
is settled by its magnitude alone. -/
def ofDigits (digits : List Char) (exponent : Int) : Float :=
  let count := Nat.ofDigitChars 10 digits 0
  let magnitude := exponent + digits.length
  if count = 0 ∨ magnitude < -400 then
    0
  else if 400 < exponent then
    1 / 0
  else
    Float.ofScientific count (decide (exponent < 0)) exponent.natAbs

/-- The digits and the point of a decimal: its digits, how many of them follow the point, and the
rest of the text. -/
def readDigits (cs : List Char) : Option (List Char × Nat × List Char) :=
  let (whole, rest) := spanDigits cs
  let (fraction, rest) :=
    match rest with
    | '.' :: tail => spanDigits tail
    | _ => ([], rest)
  if whole.isEmpty && fraction.isEmpty then none else some (whole ++ fraction, fraction.length, rest)

/-- The exponent that ends a decimal; 0 if there is none. -/
def readExponent : List Char → Option Int
  | [] => some 0
  | e :: cs =>
    if e != 'e' && e != 'E' then none else
    let (negative, cs) :=
      match cs with
      | '-' :: tail => (true, tail)
      | '+' :: tail => (false, tail)
      | _ => (false, cs)
    let (digits, rest) := spanDigits cs
    if digits.isEmpty || !rest.isEmpty then none else
    let n : Int := Nat.ofDigitChars 10 digits 0
    some (if negative then -n else n)

/-- A decimal without a sign. -/
def readDecimal (cs : List Char) : Option Float := do
  let (digits, places, rest) ← readDigits cs
  let exponent ← readExponent rest
  return ofDigits digits (exponent - places)

/-- The names of what is not finite. -/
def readName (cs : List Char) : Option Float :=
  let name := String.ofList (cs.map Char.toLower)
  if name = "inf" ∨ name = "infinity" then some (1 / 0)
  else if name = "nan" then some (0 / 0)
  else none

/-- A double without a sign. -/
def readMagnitude (cs : List Char) : Option Float :=
  readDecimal cs <|> readName cs

/-- The double that the whole text stands for. -/
def read (cs : List Char) : Except ReadFault Float :=
  match cs with
  | [] => .error .empty
  | '-' :: tail => (readMagnitude tail).elim (.error .invalid) (.ok <| - ·)
  | '+' :: tail => (readMagnitude tail).elim (.error .invalid) .ok
  | _ => (readMagnitude cs).elim (.error .invalid) .ok

end PulseSequencer.Decimal
