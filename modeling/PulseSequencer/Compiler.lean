import PulseSequencer.Quantization
import PulseSequencer.Sequence
import PulseSequencer.Synchrony
import PulseSequencer.Waveform

/-!
# Compiling signals

Signals, gated by masking signals, become a program that repeats for ever: they are brought to a
common duration, counted in time steps, sampled, and closed with a branch to the first word during
which every signal is off.
-/

namespace PulseSequencer

namespace Compiler

/-- The outputs that are inverted: the channels of active-low signals. -/
def activeLowMask (signals : List Signal) : FlagWord :=
  signals.foldl (fun acc s => if s.activeHigh then acc else acc ||| s.channels.mask) 0

/-- The output stage that belongs to signals. -/
def outputStage (channels reserved : Nat) (signals : List Signal) : OutputStage :=
  .ofWidth channels reserved (activeLowMask signals)

/-- The outputs with every signal off. -/
def allOff (channels reserved : Nat) (signals : List Signal) : FlagWord :=
  (outputStage channels reserved signals).allOff

/-- The channels that any of the signals drives. -/
def channelsOf (signals : List Signal) : ChannelSet :=
  .unionAll (signals.map Signal.channels)

/-- Checks that signals may drive their channels. -/
def checkControllable (c : Config) (channels : ChannelSet) : Except CompileError Unit :=
  match channels.max? with
  | none => .ok ()
  | some channel =>
    match c.highestControllable? with
    | none => .error (.topology (.beyondControllable none channel))
    | some highest =>
      if channel ≤ highest then .ok ()
      else .error (.topology (.beyondControllable (some highest) channel))

/-- Checks the settings, and the channels of the signals against them and against each other. -/
def validate (c : Config) (signals masking : List Signal) : Except CompileError Unit := do
  if signals.isEmpty then
    throw (.invalidSignal .noSignals)
  c.validate
  let driven := channelsOf signals
  let masked := channelsOf masking
  checkControllable c (driven.union masked)
  let undriven := masked.diff driven
  if !undriven.isEmpty then
    throw (.topology (.maskingNotDriven undriven.toList))

/-- Gives each signal its adjusted frequency. -/
def rescale (signals : List Signal) (frequencies : List Float) : Except CompileError (List Signal) :=
  (signals.zip frequencies).mapM fun (s, f) => CompileError.ofSignal (s.withFrequency f)

/-- Counts synchronized signals in time steps. -/
def quantize (c : Config) (signals masking : List Signal) (synchrony : Synchrony) :
    Except CompileError Quantization := do
  let rescaled ← rescale signals (synchrony.frequencies.take signals.length)
  let rescaledMasking ← rescale masking (synchrony.frequencies.drop signals.length)
  Quantization.ofSignals c.quantum synchrony.cycles rescaled rescaledMasking

/-- The number of cycles before the final branch. -/
def sampledCycles (duration step : Nat) : Nat :=
  duration / step - 1

/-- Checks that the program cannot become longer than a run may be. -/
def checkSteps (c : Config) (duration step : Nat) : Except CompileError Unit :=
  let needed := sampledCycles duration step + 1
  if c.limits.maxSteps < needed then
    .error (.synchronization (.tooManySteps duration step needed c.limits.maxSteps))
  else .ok ()

/-- The words of the whole program: the samples, and the branch to the first word. -/
def programWith {σ : Type} (observe : Nat → Nat → σ → σ) (start : σ) (o : OutputStage)
    (q : Quantization) (cycles : Nat) : List Instruction × σ :=
  let (words, observed) :=
    Waveform.simulateWith observe start o q.pulses q.masking q.step cycles
  (words ++ [.branch o.allOff q.step 0], observed)

/-- Compiles signals, and hands progress on to an observer. -/
def compileWith {σ : Type} (observe : Nat → Nat → σ → σ) (start : σ) (c : Config)
    (given : Option Nat) (signals masking : List Signal) : Except CompileError (Sequence × σ) := do
  validate c signals masking
  let synchrony ← Synchrony.ofSignals c given signals masking
  let q ← quantize c signals masking synchrony
  checkSteps c synchrony.duration q.step
  let (words, observed) := programWith observe start (outputStage c.channels c.reserved signals) q
    (sampledCycles synchrony.duration q.step)
  let sequence ← Sequence.ofProgram words.toArray c.channels c.limits
  return (sequence, observed)

/-- Compiles signals, gated by masking signals, into a program that repeats after the given duration
or, without one, after the duration that synchronizes them. -/
def compile (c : Config) (given : Option Nat) (signals masking : List Signal) :
    Except CompileError Sequence :=
  (compileWith (fun _ _ => id) () c given signals masking).map Prod.fst

end Compiler

end PulseSequencer
