import PulseSequencer.Assembly.Line

/-!
# Matching loops

The end of a loop belongs to the last beginning before it that has no end yet, as with brackets. Its
operand becomes the address of that beginning; all other operands stay as they are written.
-/

namespace PulseSequencer.Assembly

/-- A loop whose end has not been met yet. -/
structure OpenLoop where
  /-- The address of its first word. -/
  address : Nat
  /-- The source line of its first word. -/
  line : Nat
  deriving DecidableEq, Repr

/-- Matches the loops in lines that start at an address, with the given loops open, innermost first,
after the lines in `done`, which are kept with the last one first. -/
def matchLoopsFrom (opened : List OpenLoop) (done : List Line) (address : Nat) :
    List Line → Except CompileError (List Line)
  | [] =>
    match opened with
    | [] => .ok done.reverse
    | innermost :: _ => .error (.parse innermost.line .loopWithoutEnd)
  | line :: rest =>
    match line.opcode, opened with
    | .loop, _ =>
      matchLoopsFrom (⟨address, line.number⟩ :: opened) (line :: done) (address + 1) rest
    | .endLoop, [] => .error (.parse line.number .endWithoutLoop)
    | .endLoop, start :: outer =>
      matchLoopsFrom outer ({ line with operand := .address start.address } :: done) (address + 1) rest
    | _, _ => matchLoopsFrom opened (line :: done) (address + 1) rest

/-- Points the operand of every end of a loop at its beginning. -/
def matchLoops (lines : List Line) : Except CompileError (List Line) :=
  matchLoopsFrom [] [] 0 lines

end PulseSequencer.Assembly
