import PulseSequencer.Arith.Word

/-!
# Numerals

Reading and writing of whole numbers. An unsigned numeral is a run of digits of its base, after at
most one `+`; a signed one may start with `-` instead. Reading goes digit by digit, so the first
character that is no digit, or that takes the value out of the word, decides which fault is reported.
-/

namespace PulseSequencer.Text

/-- Why a text is no whole number. -/
inductive NumeralFault where
  | empty
  | invalidDigit
  | tooLarge
  deriving DecidableEq, Repr

/-- The wording of a fault. -/
def NumeralFault.message : NumeralFault → String
  | .empty => "cannot parse integer from empty string"
  | .invalidDigit => "invalid digit found in string"
  | .tooLarge => "number too large to fit in target type"

/-- The value of a digit in the given base. -/
def digitValue? (base : Nat) (c : Char) : Option Nat :=
  let value :=
    if '0' ≤ c ∧ c ≤ '9' then some (c.toNat - '0'.toNat)
    else if 'a' ≤ c ∧ c ≤ 'z' then some (c.toNat - 'a'.toNat + 10)
    else if 'A' ≤ c ∧ c ≤ 'Z' then some (c.toNat - 'A'.toNat + 10)
    else none
  value.filter (· < base)

/-- Reads digits after the value `acc`, which has to stay below `limit`. -/
def readDigitsFrom (base limit : Nat) : Nat → List Char → Except NumeralFault Nat
  | acc, [] => .ok acc
  | acc, c :: cs =>
    match digitValue? base c with
    | none => .error .invalidDigit
    | some d =>
      let value := acc * base + d
      if value < limit then readDigitsFrom base limit value cs else .error .tooLarge

/-- Reads a nonempty run of digits whose value is below `limit`. -/
def readDigitRun (base limit : Nat) : List Char → Except NumeralFault Nat
  | [] => .error .invalidDigit
  | cs => readDigitsFrom base limit 0 cs

/-- Reads an unsigned word. -/
def readWord (base : Nat) (cs : List Char) : Except NumeralFault Nat :=
  match cs with
  | [] => .error .empty
  | '+' :: digits => readDigitRun base wordLimit digits
  | digits => readDigitRun base wordLimit digits

/-- The number of values that are not negative in a signed 64-bit word, `2 ^ 63`. -/
def intLimit : Nat := 0x8000000000000000

/-- Reads a decimal integer that fits a signed 64-bit word. -/
def readInt (cs : List Char) : Except NumeralFault Int :=
  match cs with
  | [] => .error .empty
  | '-' :: digits => (readDigitRun 10 (intLimit + 1) digits).map fun n => -(n : Int)
  | '+' :: digits => (readDigitRun 10 intLimit digits).map Int.ofNat
  | digits => (readDigitRun 10 intLimit digits).map Int.ofNat

/-- Upper-case hexadecimal digits, with zeros in front up to the given width. -/
def hexDigits (width n : Nat) : List Char :=
  (Nat.toDigits 16 n).map Char.toUpper |>.leftpad width '0'

/-- A decimal numeral, with blanks in front up to the given width. -/
def alignedDecimal (width n : Nat) : List Char :=
  (Nat.toDigits 10 n).leftpad width ' '

/-- Writes a list of texts in brackets. -/
def bracketed (items : List String) : String :=
  "[" ++ ", ".intercalate items ++ "]"

/-- Writes a list of numbers in brackets. -/
def listText (values : List Nat) : String :=
  bracketed (values.map Nat.repr)

end PulseSequencer.Text
