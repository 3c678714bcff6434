/-
  Quoted text: a string between double quotes, on one line and with every
  character visible.

  The quote, the backslash and the five named controls are written with a
  backslash; any other character that would not show by itself is written as
  its code point in hexadecimal, `\u{…}`. All else stands for itself, so the
  quoted form of a plain word is the word between quotes.
-/
import ShiftReduce.Text.Invisible

namespace ShiftReduce.Text

/-- What stands for a character inside quotes. -/
def escape (c : Char) : List Char :=
  if c = '"' then ['\\', '"']
  else if c = '\\' then ['\\', '\\']
  else if c = '\n' then ['\\', 'n']
  else if c = '\r' then ['\\', 'r']
  else if c = '\t' then ['\\', 't']
  else if c = '\x00' then ['\\', '0']
  else if isInvisible c then ['\\', 'u', '\x7b'] ++ Nat.toDigits 16 c.toNat ++ ['\x7d']
  else [c]

/-- A text between quotes. -/
def quote (text : String) : String :=
  String.ofList ('"' :: text.toList.flatMap escape ++ ['"'])

end ShiftReduce.Text
