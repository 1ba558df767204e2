import PulseSequencer.Arith.Divisors
import PulseSequencer.Error
import PulseSequencer.Pulse

/-!
# Signals in time steps

Signals become pulses by counting their periods, offsets and high times in quanta. If all counts
have a common divisor the quantum can be that many times as long, and the program that many times
shorter.
-/

namespace PulseSequencer

/-- Pulses together with the length of the step they are counted in. -/
structure Quantization where
  pulses : List Pulse
  masking : List Pulse
  /-- The length of a step in ns. -/
  step : Nat
  /-- How many quanta a step has. -/
  factor : Nat

namespace Quantization

/-- Counts one signal in quanta. A duty cycle is a part of the counted period, a high time is counted
by itself. -/
def pulseOf (quantum : Nat) (s : Signal) : Except CompileError Pulse := do
  let unit := Binary64.ofNat quantum
  let period := Binary64.roundToWord (s.period / unit)
  if period = 0 then
    throw (.synchronization (.fasterThanQuantum s quantum))
  let high :=
    match s.authority with
    | .dutyCycle => Binary64.roundToWord (Binary64.ofNat period * s.dutyCycle)
    | .highTime => Binary64.roundToWord (Binary64.ofNat s.high / unit)
  return { period, high
           offset := Binary64.roundToWord (Binary64.ofNat s.offset / unit)
           channels := s.channels
           activeHigh := s.activeHigh }

/-- Counts signals in quanta. -/
def pulsesOf (quantum : Nat) (signals : List Signal) : Except CompileError (List Pulse) :=
  signals.mapM (pulseOf quantum)

/-- The counts of a pulse that have to stay whole; an offset of zero always does. -/
def countsOf (p : Pulse) : List Nat :=
  if p.offset = 0 then [p.period, p.high] else [p.period, p.high, p.offset]

/-- The largest number of quanta that divides all counts and the number of cycles. -/
def commonFactor (pulses : List Pulse) (cycles : Nat) : Nat :=
  max (gcdAll (pulses.flatMap countsOf ++ [cycles])) 1

/-- Counts primary and masking signals in steps that are as long as the counts and the number of
cycles allow. -/
def ofSignals (quantum cycles : Nat) (signals masking : List Signal) :
    Except CompileError Quantization := do
  let pulses ← pulsesOf quantum signals
  let maskingPulses ← pulsesOf quantum masking
  let factor := commonFactor (pulses ++ maskingPulses) cycles
  let step ← CompileError.ofArithmetic (Word.mul quantum factor)
  return { pulses := pulses.map (Pulse.coarsen factor)
           masking := maskingPulses.map (Pulse.coarsen factor)
           step, factor }

end Quantization

end PulseSequencer
