import PulseSequencer.ChannelSet
import PulseSequencer.Decimal.Notation

/-!
# Periodic signals

A signal is a binary waveform of one frequency on some channels, delayed by an offset. It is on for
part of each period, and that part is given either as a fraction of the period or as a time: the one
that was given is authoritative, and a change of frequency keeps it and derives the other one anew.

`Signal.build` checks a request, `Signal.withFrequency` rescales a signal that was built before.
-/

namespace PulseSequencer

/-- Which quantity says how long a signal is on. -/
inductive Authority where
  /-- The fraction of the period. -/
  | dutyCycle
  /-- The time in ns. -/
  | highTime
  deriving DecidableEq, Repr

/-- What a signal is asked to be. -/
structure SignalRequest where
  /-- In Hz. -/
  frequency : Float
  channels : List Nat
  /-- The delay from the start of the program, in ns. -/
  offset : Nat := 0
  dutyCycle : Float := 0.5
  /-- The time the signal is on in each period, in ns; 0 leaves it to the duty cycle. -/
  high : Nat := 0
  /-- Whether the outputs are high while the signal is on. -/
  activeHigh : Bool := true

/-- A checked signal. -/
structure Signal where
  frequency : Float
  channels : ChannelSet
  offset : Nat
  dutyCycle : Float
  high : Nat
  activeHigh : Bool
  authority : Authority

/-- Why there is no such signal. -/
inductive SignalFault where
  | frequencyNotPositive (frequency : Float)
  | dutyCycleOutOfRange (dutyCycle : Float)
  | noChannels
  | highNotBelowPeriod (high : Nat) (period : Float)
  /-- A program needs at least one signal. -/
  | noSignals

/-- The wording of a fault. -/
def SignalFault.message : SignalFault → String
  | frequencyNotPositive f => "Frequency must be positive, got " ++ Decimal.text f
  | dutyCycleOutOfRange d => "Duty cycle must be between 0 and 1, got " ++ Decimal.text d
  | noChannels => "At least one channel must be specified"
  | highNotBelowPeriod high period =>
    "Pulse high " ++ high.repr ++ " ns >= period " ++ Decimal.wholeText period ++ " ns"
  | noSignals => "At least one signal must be provided"

namespace Signal

/-- The period in ns that belongs to a frequency in Hz, and the other way round. -/
def reciprocal (x : Float) : Float :=
  1e9 / x

/-- The period in ns. -/
def period (s : Signal) : Float :=
  reciprocal s.frequency

/-- Passes on a high time that is shorter than the period. -/
def checkHigh (high : Nat) (period : Float) : Except SignalFault Unit :=
  if Binary64.ofNat high ≥ period then .error (.highNotBelowPeriod high period) else .ok ()

/-- Checks a request: the frequency, the duty cycle, the channels, and last that the signal is off
for part of each period. -/
def build (r : SignalRequest) : Except SignalFault Signal := do
  unless Binary64.isPositive r.frequency do
    throw (.frequencyNotPositive r.frequency)
  unless 0 ≤ r.dutyCycle ∧ r.dutyCycle ≤ 1 do
    throw (.dutyCycleOutOfRange r.dutyCycle)
  let channels := ChannelSet.ofList r.channels
  if channels.isEmpty then
    throw .noChannels
  let period := reciprocal r.frequency
  let (high, dutyCycle, authority) :=
    if r.high = 0 then (Binary64.toWord (period * r.dutyCycle), r.dutyCycle, Authority.dutyCycle)
    else (r.high, Binary64.ofNat r.high / period, Authority.highTime)
  checkHigh high period
  return { frequency := r.frequency, channels, offset := r.offset, dutyCycle, high,
           activeHigh := r.activeHigh, authority }

/-- The same signal at another frequency: the authoritative quantity stays, the other one is derived
from the new period. -/
def withFrequency (s : Signal) (frequency : Float) : Except SignalFault Signal := do
  unless Binary64.isPositive frequency do
    throw (.frequencyNotPositive frequency)
  let period := reciprocal frequency
  let (high, dutyCycle) :=
    match s.authority with
    | .dutyCycle => (Binary64.toWord (period * s.dutyCycle), s.dutyCycle)
    | .highTime => (s.high, Binary64.ofNat s.high / period)
  checkHigh high period
  return { s with frequency, high, dutyCycle }

/-- The signal in words. -/
def text (s : Signal) : String :=
  "Signal(" ++ Decimal.text s.frequency ++ " Hz, channels " ++ s.channels.text ++ ", offset " ++
    s.offset.repr ++ " ns, high " ++ s.high.repr ++ " ns, " ++
    (if s.activeHigh then "active high" else "active low") ++ ")"

end Signal

end PulseSequencer
