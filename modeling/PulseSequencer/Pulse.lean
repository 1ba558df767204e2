import PulseSequencer.ChannelSet
import PulseSequencer.Arith.Word

/-!
# Pulses

A periodic signal counted in steps of a fixed length: it starts after `offset` steps, and from then
on is on for the first `high` of every `period` steps. `coarsen` changes to a step that is `factor`
times as long, which is exact if the factor divides all three counts.
-/

namespace PulseSequencer

/-- A periodic signal counted in time steps. -/
structure Pulse where
  period : Nat
  offset : Nat := 0
  high : Nat := 0
  channels : ChannelSet
  activeHigh : Bool := true

namespace Pulse

/-- The counts in steps that are `factor` times as long. -/
def coarsen (factor : Nat) (p : Pulse) : Pulse :=
  { p with period := p.period / factor, offset := p.offset / factor, high := p.high / factor }

/-- Counts every pulse in steps that are `factor` times as long. -/
def coarsenAll (factor : Nat) (pulses : List Pulse) : Except ArithmeticFault (List Pulse) :=
  if factor = 0 ∧ pulses ≠ [] then .error .divisionByZero else .ok (pulses.map (coarsen factor))

/-- The pulse in words. -/
def text (p : Pulse) : String :=
  "Pulse(period " ++ p.period.repr ++ ", offset " ++ p.offset.repr ++ ", high " ++ p.high.repr ++
    ", channels " ++ p.channels.text ++ ")"

end Pulse

end PulseSequencer
