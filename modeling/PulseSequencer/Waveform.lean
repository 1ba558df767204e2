import PulseSequencer.Flags
import PulseSequencer.Instruction
import PulseSequencer.Pulse

/-!
# Sampling pulses

The outputs are sampled step by step, with one counter for each pulse that has started. A channel is
on in a step if one of its pulses is high and no masking pulse of it is low; outputs of active-low
signals are inverted, and the reserved channels follow the others. Equal neighbouring samples are
merged into one word. While it runs, the sampling reports its progress to an observer, at most about
a hundred times.
-/

namespace PulseSequencer

/-- A pulse and how far into its period it is. -/
structure PulseCounter where
  pulse : Pulse
  /-- The channels of the pulse. -/
  mask : FlagWord
  /-- The steps since the period began. -/
  elapsed : Nat

namespace PulseCounter

/-- The counter before the first step. -/
def ofPulse (p : Pulse) : PulseCounter :=
  { pulse := p, mask := p.channels.mask, elapsed := 0 }

/-- Has the pulse started? -/
def started (c : PulseCounter) (cycle : Nat) : Bool :=
  c.pulse.offset ≤ cycle

/-- Is the pulse in the high part of its period? -/
def isHigh (c : PulseCounter) : Bool :=
  c.elapsed < c.pulse.high

/-- The counter after one more step. -/
def tick (cycle : Nat) (c : PulseCounter) : PulseCounter :=
  if c.started cycle then { c with elapsed := (c.elapsed + 1) % c.pulse.period } else c

/-- The channels of the pulses that are high in a step. -/
def activeChannels (counters : List PulseCounter) (cycle : Nat) : FlagWord :=
  counters.foldl (fun acc c => if c.started cycle && c.isHigh then acc ||| c.mask else acc) 0

/-- What is left of `base` without the channels of the pulses that are low in a step. -/
def openChannels (counters : List PulseCounter) (cycle : Nat) (base : FlagWord) : FlagWord :=
  counters.foldl (fun acc c => if c.started cycle && !c.isHigh then acc.without c.mask else acc) base

end PulseCounter

/-- How the samples of the pulses become outputs. -/
structure OutputStage where
  /-- The outputs that signals may drive. -/
  controllable : FlagWord
  /-- The outputs that are on if any of those is on. -/
  followers : FlagWord
  /-- The outputs that are inverted. -/
  activeLow : FlagWord

namespace OutputStage

/-- The stage of a board with the given number of outputs, the topmost of which are reserved. -/
def ofWidth (channels reserved : Nat) (activeLow : FlagWord) : OutputStage where
  controllable := FlagWord.widthMask (channels - reserved)
  followers := FlagWord.reservedMask channels reserved
  activeLow := activeLow

/-- The outputs for the given channels being on. -/
def flags (o : OutputStage) (on : FlagWord) : FlagWord :=
  FlagWord.drive (on ^^^ o.activeLow) o.controllable o.followers

/-- The outputs with every signal off. -/
def allOff (o : OutputStage) : FlagWord :=
  o.activeLow.drive o.controllable o.followers

end OutputStage

namespace Waveform

/-- The channels that any of the pulses drives. -/
def drivenChannels (pulses : List Pulse) : FlagWord :=
  pulses.foldl (fun acc p => acc ||| p.channels.mask) 0

/-- Appends a sample of `step` ns to words that are kept with the last one first. -/
def push (step : Nat) (flags : FlagWord) : List Instruction → List Instruction
  | [] => [.cont flags step]
  | last :: rest =>
    if last.flags = flags then { last with duration := last.duration + step } :: rest
    else .cont flags step :: last :: rest

/-- After how many cycles progress is reported. -/
def reportInterval (cycles : Nat) : Nat :=
  max (cycles / 100) 1

/-- Is progress reported once `done` of `cycles` cycles are sampled? -/
def reportsAt (cycles done : Nat) : Bool :=
  done % reportInterval cycles == 0 || done == cycles

/-- The state of a sampling. -/
structure Sampler (σ : Type) where
  primary : List PulseCounter
  masking : List PulseCounter
  /-- The words so far, the last one first. -/
  words : List Instruction
  /-- What the observer has made of the reports so far. -/
  observed : σ

/-- How a sampling is set up. -/
structure Setup (σ : Type) where
  output : OutputStage
  /-- The length of a step in ns. -/
  step : Nat
  /-- The channels that masking pulses leave alone unless they are low. -/
  driven : FlagWord
  /-- The number of cycles in all. -/
  cycles : Nat
  /-- Takes the number of cycles done, of how many, and what it made of the reports before. -/
  observe : Nat → Nat → σ → σ

/-- Samples one cycle. -/
def sample {σ : Type} (u : Setup σ) (cycle : Nat) (s : Sampler σ) : Sampler σ :=
  let active := PulseCounter.activeChannels s.primary cycle
  let passed := PulseCounter.openChannels s.masking cycle u.driven
  { primary := s.primary.map (PulseCounter.tick cycle)
    masking := s.masking.map (PulseCounter.tick cycle)
    words := push u.step (u.output.flags (active &&& passed)) s.words
    observed :=
      if reportsAt u.cycles (cycle + 1) then u.observe (cycle + 1) u.cycles s.observed
      else s.observed }

/-- Samples the cycles that remain, from the given one on. -/
def sampleFrom {σ : Type} (u : Setup σ) : (remaining : Nat) → (cycle : Nat) → Sampler σ → Sampler σ
  | 0, _, s => s
  | remaining + 1, cycle, s => sampleFrom u remaining (cycle + 1) (sample u cycle s)

/-- The words of `cycles` cycles of `step` ns, and what the observer made of the progress. -/
def simulateWith {σ : Type} (observe : Nat → Nat → σ → σ) (start : σ) (o : OutputStage)
    (pulses masking : List Pulse) (step cycles : Nat) : List Instruction × σ :=
  let u : Setup σ := { output := o, step, driven := drivenChannels pulses, cycles, observe }
  let s := sampleFrom u cycles 0
    { primary := pulses.map .ofPulse, masking := masking.map .ofPulse, words := [], observed := start }
  (s.words.reverse, s.observed)

/-- The words of `cycles` cycles of `step` ns. -/
def simulate (o : OutputStage) (pulses masking : List Pulse) (step cycles : Nat) :
    List Instruction :=
  (simulateWith (fun _ _ => id) () o pulses masking step cycles).1

end Waveform

end PulseSequencer
