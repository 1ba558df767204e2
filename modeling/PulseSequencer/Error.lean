import PulseSequencer.Instruction
import PulseSequencer.Signal
import PulseSequencer.Text.Quoted

/-!
# Errors

Every way in which no program or timeline comes about, as a cause with the values that belong to it.
The wording is kept apart from the causes, in one `message` function each. A `CompileError` says in
which part of the work the cause was met, and for control flow and program texts also at which
address or source line.
-/

namespace PulseSequencer

/-- Why the signals have no common repeating duration. -/
inductive SyncFault where
  | noSignals
  | durationTooShort (duration quantum : Nat)
  | slowestRoundsToZero (frequency : Float) (granularity : Nat)
  | periodRoundsToZero (frequency : Float) (granularity : Nat)
  | multipleOverflows (periods : List Nat)
  | multipleTooLong (duration : Nat)
  | granularityZero
  | fasterThanQuantum (signal : Signal) (quantum : Nat)
  | tooManySteps (duration step needed limit : Nat)

/-- Why the channels do not fit together. -/
inductive TopologyFault where
  | quantumZero
  | channelCount (channels : Nat)
  | reservedTooMany (reserved channels : Nat)
  | beyondControllable (highest : Option Nat) (channel : Nat)
  | maskingNotDriven (channels : List Nat)
  | flagsTooWide (instruction : Instruction) (address channels : Nat)
  | channelOutOfRange (channel channels : Nat)
  | excludedOutOfRange (channels : Nat) (excluded : List Nat)

/-- Why a program cannot be run to its end. -/
inductive FlowFault where
  | emptyProgram
  | tooManySteps (limit : Nat)
  | durationOverflow
  | targetOutOfRange (opcode : Opcode) (target : Int) (size : Nat)
  | callsTooDeep (limit : Nat)
  | returnWithoutCall
  | loopCountNotPositive (count : Int)
  | loopsTooDeep (limit : Nat)
  | endWithoutLoop
  deriving DecidableEq, Repr

/-- Why a file has no text. -/
inductive FileFault where
  | notFound
  | isDirectory
  | notDirectory
  | notText
  | other (reason : String)
  deriving DecidableEq, Repr

/-- Why a line of a program text stands for no program word. -/
inductive ParseFault where
  | tooFewFields (line : String)
  | tooManyFields (line : String)
  | emptyLabel
  | flagsWithoutBase (token : String)
  | flagsMalformed (token : String) (fault : Text.NumeralFault)
  | flagsTooWide (token : String) (channels : Nat)
  | durationMalformed (token : String)
  | durationTooLong (token : String)
  | durationTooShort (token : String)
  | unknownOpcode (name : String)
  | duplicateLabel (label : String)
  | endWithoutLoop
  | loopWithoutEnd
  | operandMalformed (text : String) (labels : List String)
  | flow (fault : FlowFault)
  | unreadable (path : String) (fault : FileFault)
  deriving DecidableEq, Repr

/-- Why there is no program, and where in the work that was found. -/
inductive CompileError where
  | invalidSignal (fault : SignalFault)
  | synchronization (fault : SyncFault)
  | topology (fault : TopologyFault)
  | controlFlow (address : Nat) (fault : FlowFault)
  | parse (line : Nat) (fault : ParseFault)
  | arithmetic (fault : ArithmeticFault)
  /-- The stacks of a run are not to be had in this depth. -/
  | capacity (depth : Nat)

/-- The wording of a fault. -/
def SyncFault.message : SyncFault → String
  | noSignals => "no signals to synchronize"
  | durationTooShort duration quantum =>
    "duration " ++ duration.repr ++ " ns is shorter than the minimum instruction length " ++
      quantum.repr ++ " ns"
  | slowestRoundsToZero frequency granularity =>
    "period of the slowest signal (" ++ Decimal.text frequency ++
      " Hz) rounds to 0 ns at a granularity of " ++ granularity.repr ++ " ns"
  | periodRoundsToZero frequency granularity =>
    "period of " ++ Decimal.text frequency ++ " Hz rounds to 0 ns at a granularity of " ++
      granularity.repr ++ " ns"
  | multipleOverflows periods =>
    "lcm timespan of input periods " ++ Text.listText periods ++ " ns overflows"
  | multipleTooLong duration =>
    "lcm timespan of input frequencies is too large, " ++
      Decimal.scientificText (Binary64.ofNat duration * 1e-9) ++ " s"
  | granularityZero => "rounding granularity n_round must be positive"
  | fasterThanQuantum signal quantum =>
    signal.text ++ " is faster than the minimum instruction length of " ++ quantum.repr ++ " ns"
  | tooManySteps duration step needed limit =>
    "A repeating duration of " ++ duration.repr ++ " ns in steps of " ++ step.repr ++ " ns needs " ++
      needed.repr ++ " instructions, more than the limit of " ++ limit.repr

/-- The wording of a fault. -/
def TopologyFault.message : TopologyFault → String
  | quantumZero => "min_instruction_len must be positive, got 0"
  | channelCount channels =>
    "nr_channels must be positive and at most 64, got " ++ channels.repr
  | reservedTooMany reserved channels =>
    "reserved_channels (" ++ reserved.repr ++ ") must be less than nr_channels (" ++
      channels.repr ++ ")"
  | beyondControllable highest channel =>
    "Signal channels exceed the configured controllable range 0.." ++
      (highest.map Nat.repr).getD "-1" ++ ". Got channel " ++ channel.repr ++ "."
  | maskingNotDriven channels =>
    "Masking channels must be a subset of signal channels. Invalid masking channels: " ++
      Text.listText channels
  | flagsTooWide instruction address channels =>
    "Instruction " ++ instruction.text ++ " at address " ++ address.repr ++
      " sets flags beyond " ++ channels.repr ++ " channels"
  | channelOutOfRange channel channels =>
    "channel " ++ channel.repr ++ " is outside 0.." ++ channels.repr
  | excludedOutOfRange channels excluded =>
    "exclude_channels must be in range 0.." ++ (channels - 1).repr ++ ", got " ++
      Text.listText excluded

/-- The wording of a fault. -/
def FlowFault.message : FlowFault → String
  | emptyProgram => "Instruction list cannot be empty"
  | tooManySteps limit => "unrolling exceeded " ++ limit.repr ++ " steps"
  | durationOverflow => "total duration exceeds u64::MAX ns"
  | targetOutOfRange opcode target size =>
    opcode.name ++ " target " ++ target.repr ++ " is outside instruction range 0.." ++ size.repr
  | callsTooDeep limit => "subroutine nesting exceeds " ++ limit.repr ++ " levels"
  | returnWithoutCall => "RTS encountered without a matching JSR"
  | loopCountNotPositive count => "LOOP iterations must be positive, got " ++ count.repr
  | loopsTooDeep limit => "loop nesting exceeds " ++ limit.repr ++ " levels"
  | endWithoutLoop => "END_LOOP encountered without a matching LOOP"

/-- The wording of a fault. -/
def FileFault.message : FileFault → String
  | notFound => "No such file or directory (os error 2)"
  | isDirectory => "Is a directory (os error 21)"
  | notDirectory => "Not a directory (os error 20)"
  | notText => "stream did not contain valid UTF-8"
  | other reason => reason

/-- The wording of a fault. -/
def ParseFault.message : ParseFault → String
  | tooFewFields line => "Invalid instruction '" ++ line ++ "'"
  | tooManyFields line => "Too many instruction fields in '" ++ line ++ "'"
  | emptyLabel => "Empty label"
  | flagsWithoutBase token => "Flags '" ++ token ++ "' not in bits or hex"
  | flagsMalformed token fault => "Invalid flags value '" ++ token ++ "': " ++ fault.message
  | flagsTooWide token channels =>
    "Flags value '" ++ token ++ "' exceeds " ++ channels.repr ++ " bits"
  | durationMalformed token =>
    "Invalid duration '" ++ token ++
      "'. Expected '<value><unit>' with unit ns, us, ms or s, e.g. '100ns'"
  | durationTooLong token => "Duration '" ++ token ++ "' does not fit in u64 nanoseconds"
  | durationTooShort token => "Duration '" ++ token ++ "' is shorter than 1 ns"
  | unknownOpcode name => Opcode.unknownMessage name.toList
  | duplicateLabel label => "Duplicate label '" ++ label ++ "'"
  | endWithoutLoop => "END_LOOP without matching LOOP"
  | loopWithoutEnd => "LOOP without matching END_LOOP"
  | operandMalformed text labels =>
    "Invalid inst_data '" ++ text ++ "', known labels: " ++
      Text.bracketed (labels.map Text.quoted)
  | flow fault => fault.message
  | unreadable path fault => "cannot read " ++ path ++ ": " ++ fault.message

/-- The wording of a fault. -/
def ArithmeticFault.message : ArithmeticFault → String
  | divisionByZero => "division by zero"
  | overflow => "the result does not fit 64 bits"

/-- The wording of an error. -/
def CompileError.message : CompileError → String
  | invalidSignal fault => "invalid signal: " ++ fault.message
  | synchronization fault => "synchronization failed: " ++ fault.message
  | topology fault => "invalid channel topology: " ++ fault.message
  | controlFlow address fault =>
    "invalid control flow at address " ++ address.repr ++ ": " ++ fault.message
  | parse line fault => "line " ++ line.repr ++ ": " ++ fault.message
  | arithmetic fault => fault.message
  | capacity depth => "stacks of " ++ depth.repr ++ " levels do not fit into memory"

/-- Reports a fault of word arithmetic as an error. -/
def CompileError.ofArithmetic {α : Type} (result : Except ArithmeticFault α) :
    Except CompileError α :=
  result.mapError .arithmetic

/-- Reports a fault of a signal as an error. -/
def CompileError.ofSignal {α : Type} (result : Except SignalFault α) : Except CompileError α :=
  result.mapError .invalidSignal

end PulseSequencer
