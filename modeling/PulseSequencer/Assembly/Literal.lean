import PulseSequencer.Decimal.Reader
import PulseSequencer.Error
import PulseSequencer.Text.Blank

/-!
# Flags and durations in program texts

Flags are written as a hexadecimal number after `0x` or a binary one after `0b`, no wider than the
program has channels. A duration is a decimal number followed by one of the units `ns`, `us`, `ms` and
`s`; it is converted to whole ns, and what is less than one is refused.
-/

namespace PulseSequencer.Assembly

/-- The base of a number that starts with the given two characters. -/
def base? (zero letter : Char) : Option Nat :=
  if zero = '0' ∧ (letter = 'x' ∨ letter = 'X') then some 16
  else if zero = '0' ∧ (letter = 'b' ∨ letter = 'B') then some 2
  else none

/-- Takes the base off a number: what base it is in, and its digits. -/
def splitBase : List Char → Option (Nat × List Char)
  | zero :: letter :: digits => (base? zero letter).map fun base => (base, digits)
  | _ => none

/-- Reads flags for the given number of channels. -/
def parseFlags (channels : Nat) (token : List Char) : Except ParseFault FlagWord :=
  let shown := String.ofList token
  match splitBase token with
  | none => .error (.flagsWithoutBase shown)
  | some (base, digits) =>
    match Text.readWord base digits with
    | .error fault => .error (.flagsMalformed shown fault)
    | .ok value =>
      let flags : FlagWord := BitVec.ofNat 64 value
      if flags.fits channels then .ok flags else .error (.flagsTooWide shown channels)

/-- How many ns a unit has. -/
def unitScale? (unit : List Char) : Option Float :=
  match unit with
  | ['n', 's'] => some 1
  | ['u', 's'] => some 1e3
  | ['m', 's'] => some 1e6
  | ['s'] => some 1e9
  | _ => none

/-- A duration as written: digits before and after the point, and the unit. -/
structure DurationLiteral where
  whole : List Char
  fraction : List Char
  unit : List Char
  deriving DecidableEq, Repr

/-- Takes a duration apart: digits, if there is a point also digits after it, then the unit, with
blanks before it or not. -/
def splitDuration (token : List Char) : Option DurationLiteral :=
  let (whole, rest) := Decimal.spanDigits token
  if whole.isEmpty then none else
  match rest with
  | '.' :: tail =>
    let (fraction, rest) := Decimal.spanDigits tail
    if fraction.isEmpty then none else some ⟨whole, fraction, Text.trimStart rest⟩
  | _ => some ⟨whole, [], Text.trimStart rest⟩

/-- The number a duration is written with. -/
def DurationLiteral.value (d : DurationLiteral) : Float :=
  Decimal.ofDigits (d.whole ++ d.fraction) (-(d.fraction.length : Int))

/-- The duration in ns, before the fraction is dropped. -/
def DurationLiteral.nanoseconds? (d : DurationLiteral) : Option Float :=
  (unitScale? d.unit).map (d.value * ·)

/-- Reads a duration, in ns. -/
def parseDuration (token : List Char) : Except ParseFault Nat :=
  let shown := String.ofList token
  match (splitDuration token).bind DurationLiteral.nanoseconds? with
  | none => .error (.durationMalformed shown)
  | some ns =>
    if !ns.isFinite || ns ≥ Binary64.ofNat maxWord then .error (.durationTooLong shown)
    else
      let duration := Binary64.toWord ns
      if duration = 0 then .error (.durationTooShort shown) else .ok duration

end PulseSequencer.Assembly
