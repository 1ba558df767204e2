import PulseSequencer.Text.Blank
import PulseSequencer.Text.Split

/-!
# The lines of a program text

A program text is read line by line. What follows `//` in a line is a comment, tabs do not count, and
neither do blanks at the ends of a line. `statements` lists what is left: the lines that say
something, each with its number in the text, counted from 1.
-/

namespace PulseSequencer.Assembly

/-- A line that says something. -/
structure Statement where
  /-- The number of the line in the text, from 1. -/
  line : Nat
  text : List Char
  deriving DecidableEq, Repr

/-- The part of a line before its comment. -/
def cutComment : List Char → List Char
  | [] => []
  | '/' :: '/' :: _ => []
  | c :: cs => c :: cutComment cs

/-- What a line says, without its comment, its tabs and the blanks at its ends. -/
def strip (line : List Char) : List Char :=
  Text.trim ((cutComment line).filter (· != '\t'))

/-- The lines of a text that say something. -/
def statements (source : List Char) : List Statement :=
  (Text.fields '\n' source).zipIdx.filterMap fun (line, index) =>
    let text := strip line
    if text.isEmpty then none else some ⟨index + 1, text⟩

end PulseSequencer.Assembly
