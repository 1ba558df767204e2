import PulseSequencer.Flags
import PulseSequencer.Decimal.Notation

/-!
# Errors of a board

What can go wrong between a program and a board: a word of the program has no form on the board, the
clock is no clock, or a call of the vendor library fails. A failed call is reported with what was
being done, its code, and the description the library gave.
-/

namespace PulseSequencer.Board

/-- Why a program word has no form on the board. -/
inductive WordFault where
  | flagsTooWide (flags : FlagWord)
  | shorterThanTick (duration : Nat) (clock : Float)
  | operandOutOfRange (operand : Int)

/-- What a vendor call is made for. -/
inductive Action where
  | select (number : Int)
  | init (number : Int)
  | reset
  | setClock (clock : Float)
  | beginProgram
  | writeWord (address : Nat)
  | endProgram
  | start
  | stop
  | readStatus
  | readFirmware
  | countBoards
  | named (text : String)

/-- Why an operation on a board fails. -/
inductive Error where
  | call (action : Action) (code : Int) (report : String)
  | word (address : Nat) (fault : WordFault)
  | clock (mhz : Float)

/-- The number of outputs of a board. -/
def outputs : Nat := 24

/-- The wording of a fault. -/
def WordFault.message : WordFault → String
  | flagsTooWide flags =>
    "flags 0x" ++ String.ofList (Text.hexDigits 1 flags.toNat) ++ " exceed the " ++ outputs.repr ++
      " board outputs"
  | shorterThanTick duration clock =>
    "duration " ++ duration.repr ++ " ns is shorter than one " ++ Decimal.text clock ++
      " MHz clock tick"
  | operandOutOfRange operand => "inst_data " ++ operand.repr ++ " does not fit the board"

/-- The wording of an action. -/
def Action.text : Action → String
  | select number => "select PulseBlaster board " ++ number.repr
  | init number => "initialize PulseBlaster board " ++ number.repr
  | reset => "reset PulseBlaster board"
  | setClock clock => "set core clock to " ++ Decimal.text clock ++ " MHz"
  | beginProgram => "start pulse programming"
  | writeWord address => "write instruction " ++ address.repr
  | endProgram => "stop pulse programming"
  | start => "start PulseBlaster execution"
  | stop => "stop PulseBlaster execution"
  | readStatus => "read status"
  | readFirmware => "read firmware ID"
  | countBoards => "count PulseBlaster boards"
  | named text => text

/-- The wording of an error. -/
def Error.message : Error → String
  | call action code report =>
    "Failed to " ++ action.text ++ " (code " ++ code.repr ++ "): " ++ report
  | word address fault => "instruction " ++ address.repr ++ ": " ++ fault.message
  | clock mhz => "clock frequency must be positive, got " ++ Decimal.text mhz ++ " MHz"

end PulseSequencer.Board
