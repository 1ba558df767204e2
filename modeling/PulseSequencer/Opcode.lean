import PulseSequencer.Text.Blank

/-!
# Opcodes

The nine opcodes of a pulse program, with their names and the numbers the board knows them by. Names
are read in any case and with blanks around them; `parse?_name` says that reading undoes writing.
-/

namespace PulseSequencer

/-- What a program word does after its outputs have been held for its duration. -/
inductive Opcode where
  /-- Goes on to the next word. -/
  | cont
  /-- Ends the program. -/
  | stop
  /-- Begins a loop; the operand is the number of passes. -/
  | loop
  /-- Ends the innermost loop. -/
  | endLoop
  /-- Calls the subroutine at the address in the operand. -/
  | jsr
  /-- Returns from a subroutine. -/
  | rts
  /-- Starts over from the address in the operand. -/
  | branch
  /-- Holds the outputs several times as long. -/
  | longDelay
  /-- Waits for an external trigger. -/
  | wait
  deriving DecidableEq, Repr

namespace Opcode

/-- All opcodes, in the order of their numbers. -/
def all : List Opcode :=
  [cont, stop, loop, endLoop, jsr, rts, branch, longDelay, wait]

/-- The name in program texts. -/
def name : Opcode → String
  | cont => "CONTINUE"
  | stop => "STOP"
  | loop => "LOOP"
  | endLoop => "END_LOOP"
  | jsr => "JSR"
  | rts => "RTS"
  | branch => "BRANCH"
  | longDelay => "LONG_DELAY"
  | wait => "WAIT"

/-- The number the board knows the opcode by. -/
def code : Opcode → Nat
  | cont => 0
  | stop => 1
  | loop => 2
  | endLoop => 3
  | jsr => 4
  | rts => 5
  | branch => 6
  | longDelay => 7
  | wait => 8

/-- Finds the opcode with the given name, in any case and with blanks around it. -/
def parse? (text : List Char) : Option Opcode :=
  let upper := (Text.trim text).map Char.toUpper
  all.find? fun op => op.name.toList == upper

/-- The wording when no opcode has the given name. -/
def unknownMessage (text : List Char) : String :=
  "Invalid opcode '" ++ String.ofList (Text.trim text) ++ "'"

theorem parse?_name (op : Opcode) : parse? op.name.toList = some op := by
  cases op <;> decide +kernel

end Opcode

end PulseSequencer
