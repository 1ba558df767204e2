import PulseSequencer.CommandLine.Command

/-!
# The program

Reads the command from the arguments, the program text from its file, and writes the listing of the
sequence to standard output. The exit code is 0 for success, 1 for a failure, which is described on
standard error, and 2 for arguments that are no command.
-/

namespace PulseSequencer.CommandLine

/-- The fault behind a failed attempt to read a file. The code of a directory is 21, with a minus sign
where the path was looked up before it was read. -/
def fileFaultOf : IO.Error → FileFault
  | .noFileOrDirectory .. => .notFound
  | .inappropriateType _ code _ => if code = 21 ∨ code = -21 then .isDirectory else .notDirectory
  | e => .other (toString e)

/-- The text of a file. -/
def readText (path : String) : IO (Except FileFault String) := do
  try
    let bytes ← IO.FS.readBinFile path
    return match String.fromUTF8? bytes with
      | some text => .ok text
      | none => .error .notText
  catch e => return .error (fileFaultOf e)

/-- What to write where, and the exit code. -/
def report : Outcome → IO UInt32
  | .success output => do
    IO.print output
    return 0
  | .failure message => do
    IO.eprintln message
    return 1
  | .usage => do
    IO.eprintln "usage: asm PATH [--nr-flags N]"
    IO.eprintln "       pulses --signal FREQ:CH[,CH...][:DUTY] [--active-low S] [--mask S]"
    IO.eprintln "              [--quantum N] [--channels N] [--reserved N]"
    return 2

/-- Runs the program with the given arguments. -/
def runProgram (arguments : List String) : IO UInt32 := do
  let command := Command.parse? arguments
  let source ← match command.bind Command.input? with
    | some path => readText path
    | none => pure (.error .notFound)
  report (outcome (fun _ => source) command)

end PulseSequencer.CommandLine

def main (arguments : List String) : IO UInt32 :=
  PulseSequencer.CommandLine.runProgram arguments
