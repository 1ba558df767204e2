import PulseSequencer.Arith.Divisors
import PulseSequencer.Config

/-!
# One repeating duration for all signals

Signals repeat together after a duration that holds whole periods of all of them. Where it is not
given it is found in one of two ways, and the frequencies are adjusted to it.

* **Multiples of the slowest.** If the greatest common divisor of the frequencies, taken to some
  decimal digits, is one of them, the duration is the longest period, rounded to the granularity,
  and the other periods are parts of it, rounded to the quantum (`multiplePeriods`).
* **Least common multiple.** Otherwise every period is rounded to the granularity and the duration is
  their least common multiple, which has to stay below a ceiling (`roundedPeriods`, `commonMultiple`).
-/

namespace PulseSequencer

/-- A repeating duration, and the frequencies the signals have in it. -/
structure Synchrony where
  /-- In ns. -/
  duration : Nat
  /-- How many quanta the duration holds. -/
  cycles : Nat
  /-- The adjusted frequencies, in the order of the signals. -/
  frequencies : List Float

namespace Synchrony

/-- The spacing of the grid that periods are rounded to, in ns. -/
def granularity (c : Config) : Except CompileError Nat :=
  CompileError.ofArithmetic (Word.mul c.roundingCycles c.quantum)

/-- The lowest frequency; infinite if there is none. -/
def slowest (frequencies : List Float) : Float :=
  frequencies.foldl (fun acc f => if f < acc then f else acc) (1 / 0)

/-- The factor that turns the decimal digits that count into whole numbers. Numbers of digits from
`2 ^ 31` on stand for negative ones. -/
def scale (digits : Nat) : Float :=
  Binary64.tenPow (Int.bmod digits 0x100000000)

/-- The frequencies as whole numbers of their last digit that counts. -/
def scaledFrequencies (c : Config) (frequencies : List Float) : List Nat :=
  frequencies.map fun f => Binary64.roundToWord (f * scale c.digits)

/-- Is the greatest common divisor of the frequencies one of them? -/
def areMultiples (c : Config) (frequencies : List Float) : Bool :=
  let scaled := scaledFrequencies c frequencies
  scaled.contains (gcdAll scaled)

/-- The period of one signal as a part of the duration, rounded to the quantum. -/
def multiplePeriod (c : Config) (duration : Nat) (fmin f : Float) : Except CompileError Nat := do
  let exact := Binary64.roundToWord (Binary64.ofNat duration / (f / fmin))
  let period ← CompileError.ofArithmetic (roundToMultiple exact c.quantum)
  if period = 0 then
    throw (.synchronization (.periodRoundsToZero f c.quantum))
  return period

/-- The longest period as duration, and all periods as parts of it. -/
def multiplePeriods (c : Config) (frequencies : List Float) :
    Except CompileError (Nat × List Nat) := do
  let grid ← granularity c
  let fmin := slowest frequencies
  let duration ←
    CompileError.ofArithmetic (roundToMultiple (Binary64.roundToWord (Signal.reciprocal fmin)) grid)
  if duration = 0 then
    throw (.synchronization (.slowestRoundsToZero fmin grid))
  let periods ← frequencies.mapM (multiplePeriod c duration fmin)
  return (duration, periods)

/-- The period of one signal, cut to whole quanta and rounded to the granularity. -/
def roundedPeriod (c : Config) (grid : Nat) (f : Float) : Except CompileError Nat := do
  let exact := Binary64.roundToWord (Signal.reciprocal f)
  let period ← CompileError.ofArithmetic (roundToMultiple (exact - exact % c.quantum) grid)
  if period = 0 then
    throw (.synchronization (.periodRoundsToZero f grid))
  return period

/-- All periods, each cut to whole quanta and rounded to the granularity. -/
def roundedPeriods (c : Config) (frequencies : List Float) : Except CompileError (List Nat) := do
  let grid ← granularity c
  frequencies.mapM (roundedPeriod c grid)

/-- The least common multiple of the periods, if it is below the ceiling. -/
def commonMultiple (c : Config) (periods : List Nat) : Except CompileError Nat :=
  match lcmAll? periods with
  | none => .error (.synchronization (.multipleOverflows periods))
  | some duration =>
    if c.ceiling ≤ duration then .error (.synchronization (.multipleTooLong duration))
    else .ok duration

/-- The rounded periods and their least common multiple. -/
def commonPeriods (c : Config) (frequencies : List Float) :
    Except CompileError (Nat × List Nat) := do
  let periods ← roundedPeriods c frequencies
  let duration ← commonMultiple c periods
  return (duration, periods)

/-- A duration and the periods of all signals in it, both in ns. -/
def findPeriods (c : Config) (frequencies : List Float) : Except CompileError (Nat × List Nat) :=
  if areMultiples c frequencies then multiplePeriods c frequencies else commonPeriods c frequencies

/-- The frequency in Hz that belongs to a period in ns. -/
def frequencyOf (period : Nat) : Float :=
  Signal.reciprocal (Binary64.ofNat period)

/-- A duration, given or found, and the frequencies in it. A given duration leaves the frequencies as
they are. -/
def settle (c : Config) (given : Option Nat) (frequencies : List Float) :
    Except CompileError (Nat × List Float) := do
  if frequencies.isEmpty then
    throw (.synchronization .noSignals)
  match given with
  | some duration =>
    if duration < c.quantum then
      throw (.synchronization (.durationTooShort duration c.quantum))
    return (duration, frequencies)
  | none =>
    let (duration, periods) ← findPeriods c frequencies
    return (duration, periods.map frequencyOf)

/-- Synchronizes signals of the given frequencies. -/
def ofFrequencies (c : Config) (given : Option Nat) (frequencies : List Float) :
    Except CompileError Synchrony := do
  let (duration, frequencies) ← settle c given frequencies
  let cycles ← CompileError.ofArithmetic (Word.div duration c.quantum)
  return { duration, cycles, frequencies }

/-- Synchronizes primary and masking signals, the primary ones first. -/
def ofSignals (c : Config) (given : Option Nat) (signals masking : List Signal) :
    Except CompileError Synchrony :=
  ofFrequencies c given ((signals ++ masking).map Signal.frequency)

end Synchrony

end PulseSequencer
