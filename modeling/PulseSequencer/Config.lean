import PulseSequencer.Error

/-!
# Settings

The limits under which a program is run to its end, and the settings of the compiler. The defaults
are those of a board with 24 outputs, the top three of them reserved, and a shortest word of 20 ns.
-/

namespace PulseSequencer

/-- How far a program is followed. -/
structure Limits where
  /-- The largest number of steps of a run. -/
  maxSteps : Nat := 10000000
  /-- The deepest nesting of loops, and of subroutine calls. -/
  maxDepth : Nat := 8
  deriving DecidableEq, Repr

/-- The first depth that is too deep to set stacks aside for: a loop takes 16 bytes on its stack, a call
half of that, and the bytes of a stack have to fit a signed word. -/
def stackLimit : Nat := 0x800000000000000

example : (stackLimit - 1) * 16 < 2 ^ 63 ∧ 2 ^ 63 ≤ stackLimit * 16 := by decide

/-- The settings of the compiler. -/
structure Config where
  /-- The shortest duration of a word, in ns; every duration is a multiple of it. -/
  quantum : Nat := 20
  /-- The number of outputs. -/
  channels : Nat := 24
  /-- How many of the topmost outputs follow the others: on if any lower one is on. -/
  reserved : Nat := 3
  /-- Periods are rounded to multiples of this many quanta. -/
  roundingCycles : Nat := 5000
  /-- The decimal digits of a frequency that count when frequencies are compared. -/
  digits : Nat := 4
  /-- The ceiling of a duration found as a least common multiple, in ns. -/
  ceiling : Nat := 10000000000
  limits : Limits := {}
  deriving DecidableEq, Repr

/-- Passes on a number of channels that a flag word can hold. -/
def checkChannelCount (channels : Nat) : Except CompileError Unit :=
  if channels = 0 ∨ maxChannels < channels then .error (.topology (.channelCount channels))
  else .ok ()

namespace Config

/-- The highest channel that signals may drive. -/
def highestControllable? (c : Config) : Option Nat :=
  if c.reserved < c.channels then some (c.channels - c.reserved - 1) else none

/-- Checks the settings for consistency. -/
def validate (c : Config) : Except CompileError Unit := do
  if c.quantum = 0 then
    throw (.topology .quantumZero)
  checkChannelCount c.channels
  if c.channels ≤ c.reserved then
    throw (.topology (.reservedTooMany c.reserved c.channels))
  if c.roundingCycles = 0 then
    throw (.synchronization .granularityZero)

end Config

end PulseSequencer
