import PulseSequencer.ChannelSet
import PulseSequencer.Decimal.Reader
import PulseSequencer.Signal
import PulseSequencer.Text.Blank
import PulseSequencer.Text.Split

/-!
# Signals on the command line

A signal is written as its frequency in Hz, the channels between commas and, if it is not one half,
the duty cycle, with colons between the three: `20:1,2:0.25`.
-/

namespace PulseSequencer.CommandLine

/-- A signal as written on the command line. -/
structure SignalArgument where
  frequency : Float
  channels : List Nat
  dutyCycle : Float

/-- Why an argument is no signal. -/
inductive SignalArgumentFault where
  | frequency (fault : Decimal.ReadFault)
  | channelsMissing
  | channel (fault : Text.NumeralFault)
  | dutyCycle (fault : Decimal.ReadFault)
  | tooManyParts

/-- The wording of a fault of the given argument. -/
def SignalArgumentFault.message (argument : String) : SignalArgumentFault → String
  | frequency fault => "invalid frequency in '" ++ argument ++ "': " ++ fault.message
  | channelsMissing => "missing channels in '" ++ argument ++ "'"
  | channel fault => "invalid channel in '" ++ argument ++ "': " ++ fault.message
  | dutyCycle fault => "invalid duty cycle in '" ++ argument ++ "': " ++ fault.message
  | tooManyParts => "expected FREQ:CH[,CH...][:DUTY], got '" ++ argument ++ "'"

namespace SignalArgument

/-- Reads the channels between commas. -/
def readChannels (part : List Char) : Except SignalArgumentFault (List Nat) :=
  (Text.fields ',' part).mapM fun field =>
    (Text.readWord 10 (Text.trim field)).mapError .channel

/-- Reads a duty cycle that may be left out. -/
def readDutyCycle : Option (List Char) → Except SignalArgumentFault Float
  | none => .ok 0.5
  | some part => (Decimal.read part).mapError .dutyCycle

/-- Reads the parts between colons. -/
def readParts : List (List Char) → Except SignalArgumentFault SignalArgument
  | [] => .error .channelsMissing
  | first :: rest => do
    let frequency ← (Decimal.read first).mapError .frequency
    match rest with
    | [] => throw .channelsMissing
    | second :: rest =>
      let channels ← readChannels second
      let dutyCycle ← readDutyCycle rest.head?
      if rest.length > 1 then
        throw .tooManyParts
      return { frequency, channels, dutyCycle }

/-- Reads a signal. -/
def read (argument : String) : Except SignalArgumentFault SignalArgument :=
  readParts (Text.fields ':' argument.toList)

/-- The signal asked for, of the given polarity. -/
def request (a : SignalArgument) (activeHigh : Bool) : SignalRequest :=
  { frequency := a.frequency, channels := a.channels, dutyCycle := a.dutyCycle, activeHigh }

end SignalArgument

end PulseSequencer.CommandLine
