import PulseSequencer.Board.Script
import PulseSequencer.Board.Status

/-!
# Operating a board

The vendor library has one selected board at a time, so every operation selects its own board before
anything else. Writing a program is a session that is closed whatever happens in it: if writing a word
fails, the failure is looked up first and the session closed then. Releasing a board resets and
closes it, and has no way to report a failure.
-/

namespace PulseSequencer.Board

/-- A board that has been opened. -/
structure Handle where
  number : Int
  /-- The clock frequency in MHz. -/
  clock : Float

/-- The programming target for pulse programs. -/
def pulseProgram : Int := 0

/-- Selects a board. -/
def select (number : Int) : Operating Unit := do
  let _ ← perform (.selectBoard number) (.select number)

/-- Selects and initializes a board, clocked at the given frequency in MHz. -/
def openBoard (number : Int) (clock : Float) : Operating Handle := do
  settle (checkClock clock)
  select number
  let _ ← perform .init (.init number)
  return { number, clock }

/-- Writes words to consecutive addresses. -/
def writeWords (clock : Float) : (address : Nat) → List Word → Operating Unit
  | _, [] => pure ()
  | address, w :: ws => do
    let _ ← perform (.writeWord w (w.nanoseconds clock)) (.writeWord address) .nonNegative
    writeWords clock (address + 1) ws

/-- Writes words and, should one fail, closes the session before the failure is passed on. -/
def writeSession (clock : Float) (words : List Word) : Operating Unit :=
  tryCatch (writeWords clock 0 words) fun e => do
    let _ ← issue .stopProgramming
    throw e

namespace Handle

/-- Selects the board, makes a call and checks its code. -/
def command (h : Handle) (c : Call) (action : Action) (success : Success := .zero) :
    Operating Int := do
  select h.number
  perform c action success

/-- Writes the program of a sequence and returns the number of words. A program that has no form on
the board leaves the board alone. -/
def program (h : Handle) (s : Sequence) : Operating Nat := do
  let words ← settle (wordsOf s h.clock)
  let _ ← h.command .reset .reset
  let _ ← perform (.coreClock h.clock) (.setClock h.clock)
  let _ ← perform (.startProgramming pulseProgram) .beginProgram
  writeSession h.clock words
  let _ ← perform .stopProgramming .endProgram
  return words.length

/-- Starts the program. -/
def start (h : Handle) : Operating Unit := do
  let _ ← h.command .start .start

/-- Stops the program. -/
def stop (h : Handle) : Operating Unit := do
  let _ ← h.command .stop .stop

/-- Resets the board. -/
def reset (h : Handle) : Operating Unit := do
  let _ ← h.command .reset .reset

/-- What the board is doing. -/
def status (h : Handle) : Operating Status := do
  return .ofBits (← h.command .readStatus .readStatus .nonNegative).toNat

/-- The number of the firmware of the board. -/
def firmwareId (h : Handle) : Operating Int :=
  h.command .firmwareId .readFirmware .nonNegative

/-- Resets and closes the board. The codes are of no use any more. -/
def release (h : Handle) : Operating Unit := do
  let _ ← issue (.selectBoard h.number)
  let _ ← issue .reset
  let _ ← issue .close

end Handle

/-- The number of boards the vendor library can see. -/
def countBoards : Operating Nat := do
  return (← perform .countBoards .countBoards .nonNegative).toNat

/-! ### All operations as one type -/

/-- An operation and what it is carried out on. -/
inductive Operation where
  | openBoard (number : Int) (clock : Float)
  | program (h : Handle) (s : Sequence)
  | start (h : Handle)
  | stop (h : Handle)
  | reset (h : Handle)
  | status (h : Handle)
  | firmwareId (h : Handle)
  | release (h : Handle)
  | countBoards
  | version
  | lastError

/-- What an operation returns when it succeeds. -/
inductive Reply where
  | finished
  | opened (h : Handle)
  | number (n : Int)
  | status (s : Status)
  | text (s : String)

/-- The conversation of an operation. -/
def Operation.carryOut : Operation → Operating Reply
  | openBoard number clock => .opened <$> Board.openBoard number clock
  | program h s => do return .number (← h.program s)
  | start h => do h.start; return .finished
  | stop h => do h.stop; return .finished
  | reset h => do h.reset; return .finished
  | status h => .status <$> h.status
  | firmwareId h => .number <$> h.firmwareId
  | release h => do h.release; return .finished
  | countBoards => do return .number (← Board.countBoards)
  | version => .text <$> inquire .version
  | lastError => .text <$> inquire .lastError

/-- Carries out an operation on a vendor library. -/
def Operation.run {σ : Type} (v : Vendor σ) (o : Operation) (s : σ) :
    Except Error Reply × List Event × σ :=
  Script.run v o.carryOut.run s

end PulseSequencer.Board
