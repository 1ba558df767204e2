import PulseSequencer.Board.Error
import PulseSequencer.Sequence

/-!
# Programs as a board holds them

A board has 24 outputs, operands of 32 bits and durations in ticks of its clock. `Word.ofInstruction`
converts one program word, `wordsOf` a whole program; the first word that has no form on the board
is named by its address, and of its defects the flags come before the duration and the duration before
the operand.
-/

namespace PulseSequencer.Board

/-- One program word as a board holds it. -/
structure Word where
  flags : BitVec 24
  opcode : Opcode
  operand : Int
  /-- The duration in ticks of the clock. -/
  ticks : Nat
  deriving DecidableEq, Repr

/-- Passes on a clock frequency in MHz that is one. -/
def checkClock (clock : Float) : Except Error Unit :=
  if Binary64.isPositive clock then .ok () else .error (.clock clock)

/-- The nearest number of clock ticks to a duration in ns. -/
def ticksOf (clock : Float) (duration : Nat) : Nat :=
  Binary64.roundToWord (Binary64.ofNat duration * clock / 1e3)

/-- Does the operand fit 32 bits? -/
def operandFits (operand : Int) : Bool :=
  -0x80000000 ≤ operand && operand < 0x80000000

namespace Word

/-- The duration in ns, for the given clock. -/
def nanoseconds (w : Word) (clock : Float) : Float :=
  Binary64.ofNat w.ticks * 1e3 / clock

/-- Converts a program word. -/
def ofInstruction (clock : Float) (i : Instruction) : Except WordFault Word :=
  if !i.flags.fits outputs then .error (.flagsTooWide i.flags)
  else if ticksOf clock i.duration = 0 then .error (.shorterThanTick i.duration clock)
  else if !operandFits i.operand then .error (.operandOutOfRange i.operand)
  else .ok { flags := i.flags.setWidth 24, opcode := i.opcode, operand := i.operand
             ticks := ticksOf clock i.duration }

end Word

/-- Converts the program of a sequence for the given clock. -/
def wordsOf (s : Sequence) (clock : Float) : Except Error (List Word) := do
  checkClock clock
  s.program.toList.zipIdx.mapM fun (i, address) =>
    (Word.ofInstruction clock i).mapError (.word address)

end PulseSequencer.Board
