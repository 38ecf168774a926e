import Typesweep.Text.Classes

/-!
# Quoted text

How a text from a configuration is shown inside a message: between double quotes, with a
backslash before a quote or a backslash, the short escapes for the usual controls, and the code
point of every character that cannot be shown by itself.
-/

namespace Typesweep.Text

/-- The hexadecimal digits of a number, in lower case and without leading zeros. -/
def hex (n : Nat) : Text :=
  Nat.toDigits 16 n

/-- One character as it is shown between quotes. -/
def quotedChar (c : Char) : Text :=
  if c = '\x00' then ['\\', '0']
  else if c = '\t' then ['\\', 't']
  else if c = '\r' then ['\\', 'r']
  else if c = '\n' then ['\\', 'n']
  else if c = '\\' then ['\\', '\\']
  else if c = '"' then ['\\', '"']
  else if isCombining c || !isPrintable c then ['\\', 'u', '{'] ++ hex c.toNat ++ ['}']
  else [c]

/-- The text as it is shown in a message. -/
def quoted (t : Text) : Text :=
  '"' :: t.flatMap quotedChar ++ ['"']

end Typesweep.Text
