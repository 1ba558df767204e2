import PulseSequencer.Assembly.Program
import PulseSequencer.CommandLine.Arguments
import PulseSequencer.CommandLine.SignalArgument
import PulseSequencer.Compiler

/-!
# Commands

`asm PATH` assembles a program text, `pulses --signal S …` compiles signals. `Command.parse?` reads a
command from the arguments, `Command.execute` carries it out with the help of a function that reads
files, and `outcome` is what the program prints and how it ends.
-/

namespace PulseSequencer.CommandLine

/-- What the program is asked to do. -/
inductive Command where
  /-- Assembles a program text for a number of channels. -/
  | asm (path : String) (channels : Nat)
  /-- Compiles signals with the given settings. -/
  | pulses (signals activeLow masks : List SignalArgument) (config : Config)

/-- How a run of the program ends. -/
inductive Outcome where
  | success (output : String)
  | failure (message : String)
  | usage

namespace Command

/-- Reads a word from an argument. -/
def readCount? (text : String) : Option Nat :=
  (Text.readWord 10 text.toList).toOption

/-- Reads the arguments of `asm`. -/
def parseAsm? (arguments : List String) : Option Command := do
  let a ← Arguments.sort? ["nr-flags"] arguments
  let channels ← a.single? "nr-flags" 24 readCount?
  match a.positional with
  | [path] => if path.isEmpty then none else some (.asm path channels)
  | _ => none

/-- Reads the signals of an option that may be repeated. -/
def readSignals? (a : Arguments) (name : String) : Option (List SignalArgument) :=
  (a.values name).mapM fun value => (SignalArgument.read value).toOption

/-- Reads the arguments of `pulses`. -/
def parsePulses? (arguments : List String) : Option Command := do
  let a ← Arguments.sort? ["signal", "active-low", "mask", "quantum", "channels", "reserved"] arguments
  let signals ← readSignals? a "signal"
  let activeLow ← readSignals? a "active-low"
  let masks ← readSignals? a "mask"
  let default : Config := {}
  let quantum ← a.single? "quantum" default.quantum readCount?
  let channels ← a.single? "channels" default.channels readCount?
  let reserved ← a.single? "reserved" default.reserved readCount?
  if signals.isEmpty || !a.positional.isEmpty then none
  else some (.pulses signals activeLow masks { quantum, channels, reserved })

/-- Reads a command. -/
def parse? : List String → Option Command
  | "asm" :: arguments => parseAsm? arguments
  | "pulses" :: arguments => parsePulses? arguments
  | _ => none

/-- Checks signals of one polarity. -/
def buildSignals (arguments : List SignalArgument) (activeHigh : Bool) :
    Except CompileError (List Signal) :=
  arguments.mapM fun a => CompileError.ofSignal (Signal.build (a.request activeHigh))

/-- Carries out a command. Active-low signals come after the others. -/
def execute (read : String → Except FileFault String) : Command → Except CompileError Sequence
  | asm path channels => do
    let source ← (read path).mapError fun fault => .parse 0 (.unreadable path fault)
    Assembly.assemble source channels
  | pulses signals activeLow masks config => do
    let signals ← buildSignals signals true
    let activeLow ← buildSignals activeLow false
    let masks ← buildSignals masks true
    Compiler.compile config none (signals ++ activeLow) masks

/-- The file a command reads. -/
def input? : Command → Option String
  | asm path _ => some path
  | pulses .. => none

end Command

/-- How the program ends for a command, or without one. -/
def outcome (read : String → Except FileFault String) : Option Command → Outcome
  | none => .usage
  | some command =>
    match command.execute read with
    | .ok s => .success s.text
    | .error e => .failure e.message

end PulseSequencer.CommandLine
