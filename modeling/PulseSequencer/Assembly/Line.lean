import PulseSequencer.Assembly.Layout
import PulseSequencer.Assembly.Literal

/-!
# Lines of a program text

A line holds two to four fields between commas: the flags, with a label and a colon before them or
not, the duration, the opcode and the operand. Without an opcode a word goes on to the next one;
without an operand it is 0. The operand stays as it is written until all labels are known.
-/

namespace PulseSequencer.Assembly

/-- An operand, as written or resolved. -/
inductive Operand where
  | written (text : String)
  | address (address : Nat)
  deriving DecidableEq, Repr

/-- A line that has been read. -/
structure Line where
  /-- The number of the line in the text, from 1. -/
  number : Nat
  label : Option String
  flags : FlagWord
  duration : Nat
  opcode : Opcode
  operand : Operand
  deriving DecidableEq, Repr

/-- Separates the label, if there is one, from the flags in a first field. -/
def splitLabel (field : List Char) : Except ParseFault (Option String × List Char) :=
  match Text.cutAt ':' field with
  | none => .ok (none, field)
  | some (label, flags) =>
    let label := Text.trim label
    if label.isEmpty then .error .emptyLabel
    else .ok (some (String.ofList label), Text.trim flags)

/-- Reads an opcode that may be left out. -/
def parseOpcode : Option (List Char) → Except ParseFault Opcode
  | none => .ok .cont
  | some field =>
    match Opcode.parse? field with
    | some opcode => .ok opcode
    | none => .error (.unknownOpcode (String.ofList field))

/-- Reads the fields of a line. -/
def parseFields (channels number : Nat) (first duration : List Char)
    (opcode operand : Option (List Char)) : Except ParseFault Line := do
  let (label, flags) ← splitLabel first
  let flags ← parseFlags channels flags
  let duration ← parseDuration duration
  let opcode ← parseOpcode opcode
  return { number, label, flags, duration, opcode
           operand := .written (String.ofList (operand.getD ['0'])) }

/-- Reads what a line says. -/
def parseStatement (channels : Nat) (s : Statement) : Except ParseFault Line :=
  match (Text.fields ',' s.text).map Text.trim with
  | [first, duration] => parseFields channels s.line first duration none none
  | [first, duration, opcode] => parseFields channels s.line first duration (some opcode) none
  | [first, duration, opcode, operand] =>
    parseFields channels s.line first duration (some opcode) (some operand)
  | [] | [_] => .error (.tooFewFields (String.ofList s.text))
  | _ => .error (.tooManyFields (String.ofList s.text))

/-- Reads lines one after the other, after those in `seen`, which are kept with the last one first. No
two of them may have the same label. -/
def parseLinesFrom (channels : Nat) (seen : List Line) :
    List Statement → Except CompileError (List Line)
  | [] => .ok seen.reverse
  | s :: rest =>
    match parseStatement channels s with
    | .error fault => .error (.parse s.line fault)
    | .ok line =>
      match line.label with
      | none => parseLinesFrom channels (line :: seen) rest
      | some label =>
        if seen.any (·.label == some label) then .error (.parse s.line (.duplicateLabel label))
        else parseLinesFrom channels (line :: seen) rest

/-- Reads the lines of a text. -/
def parseLines (channels : Nat) (source : List Char) : Except CompileError (List Line) :=
  parseLinesFrom channels [] (statements source)

end PulseSequencer.Assembly
