import PulseSequencer.Timeline

/-!
# Sequences

A program together with the number of channels it drives and its timeline. `Sequence.ofProgram` makes
one of a program whose flags stay within its channels and whose control flow can be followed to the
end.
-/

namespace PulseSequencer

/-- A program, its channels and its timeline. -/
structure Sequence where
  program : Program
  channels : Nat
  timeline : Timeline
  deriving DecidableEq, Repr

namespace Sequence

/-- The first word that switches on a channel the program does not have, with its address. -/
def firstTooWide? (program : Program) (channels : Nat) : Option (Instruction × Nat) :=
  program.toList.zipIdx.find? fun (i, _) => !i.flags.fits channels

/-- Checks the channels of a program and follows its control flow. -/
def ofProgram (program : Program) (channels : Nat) (limits : Limits := {}) :
    Except CompileError Sequence := do
  checkChannelCount channels
  if let some (i, address) := firstTooWide? program channels then
    throw (.topology (.flagsTooWide i address channels))
  let timeline ← Timeline.unroll program limits
  return { program, channels, timeline }

/-- The states of the channels in each step, channel 0 first. -/
def flagRows (s : Sequence) : List (List Bool) :=
  s.timeline.flags.map fun flags => flags.bits s.channels

/-- The state of one channel in each step. -/
def channelTrace (s : Sequence) (channel : Nat) : Except CompileError (List Bool) :=
  if channel < s.channels then .ok (s.timeline.flags.map fun flags => flags.isOn channel)
  else .error (.topology (.channelOutOfRange channel s.channels))

/-- The channels that are on in some step, apart from those excluded. -/
def activeChannels (s : Sequence) (exclude : List Nat) : Except CompileError (List Nat) :=
  let invalid := exclude.filter (s.channels ≤ ·)
  if invalid.isEmpty then
    .ok ((List.range s.channels).filter fun c =>
      !exclude.contains c && s.timeline.flags.any fun flags => flags.isOn c)
  else
    .error (.topology (.excludedOutOfRange s.channels invalid.mergeSort))

/-- One line for each word: its address, aligned to the right, and its text. -/
def text (s : Sequence) : String :=
  String.join (s.program.toList.zipIdx.map fun (i, address) =>
    String.ofList (Text.alignedDecimal 4 address) ++ ": " ++ i.text ++ "\n")

end Sequence

end PulseSequencer
