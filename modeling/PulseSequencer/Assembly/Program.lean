import PulseSequencer.Assembly.Loops
import PulseSequencer.Sequence

/-!
# Assembling a program text

The lines of a text are read, loops are matched, operands are resolved: a label stands for the
address of the word that carries it, before or after, and everything else has to be an integer. Where
the program that comes out cannot be followed to its end, the source line of the word at fault is
named.
-/

namespace PulseSequencer.Assembly

/-- The labels of a text in their order, each with its address. -/
def labelsOf (lines : List Line) : List (String × Nat) :=
  lines.zipIdx.filterMap fun (line, address) => line.label.map (·, address)

/-- The value of an operand. -/
def Operand.resolve (labels : List (String × Nat)) : Operand → Except ParseFault Int
  | .address a => .ok a
  | .written text =>
    match labels.lookup text with
    | some a => .ok a
    | none =>
      match Text.readInt text.toList with
      | .ok value => .ok value
      | .error _ => .error (.operandMalformed text (labels.map Prod.fst))

/-- The program word of a line. -/
def Line.instruction (labels : List (String × Nat)) (line : Line) :
    Except CompileError Instruction :=
  match line.operand.resolve labels with
  | .error fault => .error (.parse line.number fault)
  | .ok operand =>
    .ok { label := line.label, flags := line.flags, duration := line.duration
          opcode := line.opcode, operand }

/-- Names the source line of a fault in the control flow instead of the address. -/
def locate (lines : List Line) : CompileError → CompileError
  | .controlFlow address fault =>
    match lines[address]? with
    | some line => .parse line.number (.flow fault)
    | none => .controlFlow address fault
  | e => e

/-- Assembles a program text for the given number of channels. -/
def assemble (source : String) (channels : Nat := 24) (limits : Limits := {}) :
    Except CompileError Sequence := do
  checkChannelCount channels
  let lines ← parseLines channels source.toList
  let lines ← matchLoops lines
  let program ← lines.mapM (Line.instruction (labelsOf lines))
  (Sequence.ofProgram program.toArray channels limits).mapError (locate lines)

end PulseSequencer.Assembly
