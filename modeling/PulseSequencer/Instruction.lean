import PulseSequencer.Flags
import PulseSequencer.Opcode

/-!
# Program words

One word of a pulse program: the outputs it sets, how long it holds them, its opcode with an
operand, and the label it may carry in a program text. `text` is the form a program text has it in.
-/

namespace PulseSequencer

/-- One word of a pulse program. -/
structure Instruction where
  /-- The name by which operands may refer to the word. -/
  label : Option String := none
  /-- The outputs while the word is held. -/
  flags : FlagWord
  /-- How long the word is held, in ns. -/
  duration : Nat
  opcode : Opcode
  /-- A number of passes, an address, or without meaning, as the opcode has it. -/
  operand : Int
  deriving DecidableEq, Repr

/-- The words of a program, by address. -/
abbrev Program := Array Instruction

namespace Instruction

/-- A word that goes on to the next one. -/
def cont (flags : FlagWord) (duration : Nat) : Instruction :=
  { flags, duration, opcode := .cont, operand := 0 }

/-- A word that starts over from an address. -/
def branch (flags : FlagWord) (duration : Nat) (address : Nat) : Instruction :=
  { flags, duration, opcode := .branch, operand := address }

/-- The flags, duration, opcode and operand as program text. -/
def body (i : Instruction) : String :=
  "0x" ++ String.ofList (Text.hexDigits 6 i.flags.toNat) ++ ", " ++ i.duration.repr ++ "ns, " ++
    i.opcode.name ++ ", " ++ i.operand.repr

/-- The word as program text: its label, if it has one, and its body. -/
def text (i : Instruction) : String :=
  match i.label with
  | some label => label ++ ": " ++ i.body
  | none => i.body

end Instruction

end PulseSequencer
