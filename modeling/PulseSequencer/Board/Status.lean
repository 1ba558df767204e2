/-!
# The status of a board

The status word of a board has four bits that mean something.
-/

namespace PulseSequencer.Board

/-- What a board is doing. -/
structure Status where
  stopped : Bool
  reset : Bool
  running : Bool
  waiting : Bool
  deriving DecidableEq, Repr

/-- Reads a status word: bits 0 to 3 are stopped, reset, running and waiting. -/
def Status.ofBits (bits : Nat) : Status where
  stopped := bits.testBit 0
  reset := bits.testBit 1
  running := bits.testBit 2
  waiting := bits.testBit 3

end PulseSequencer.Board
