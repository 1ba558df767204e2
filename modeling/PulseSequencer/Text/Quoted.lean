import PulseSequencer.Text.Numeral
import PulseSequencer.Text.Visible

/-!
# Quoted text

A text in double quotes. A quote or a backslash inside gets a backslash before it, the characters
NUL, tab, carriage return and line feed have short escapes, and every other character that does not
show is written by its code point.
-/

namespace PulseSequencer.Text

/-- One character inside quotes. -/
def escaped (c : Char) : List Char :=
  if c = '"' then ['\\', '"']
  else if c = '\\' then ['\\', '\\']
  else if c = Char.ofNat 0 then ['\\', '0']
  else if c = '\t' then ['\\', 't']
  else if c = '\r' then ['\\', 'r']
  else if c = '\n' then ['\\', 'n']
  else if isVisible c then [c]
  else ['\\', 'u', '\x7b'] ++ Nat.toDigits 16 c.toNat ++ ['\x7d']

/-- A text in quotes. -/
def quoted (s : String) : String :=
  String.ofList (['"'] ++ s.toList.flatMap escaped ++ ['"'])

end PulseSequencer.Text
