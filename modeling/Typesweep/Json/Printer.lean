import Typesweep.Json.Basic

/-!
# Writing JSON

A value is written on one line without spaces. Inside a string only the quote, the backslash and
the controls below the space are escaped: by the short escape where there is one, else by the code
in four hexadecimal digits.
-/

namespace Typesweep.Json

/-- A hexadecimal digit in lower case. -/
def hexChar (n : Nat) : Char :=
  if n < 10 then Char.ofNat ('0'.toNat + n) else Char.ofNat ('a'.toNat + (n - 10))

/-- A character as it stands in a string. -/
def escapeChar (c : Char) : Text :=
  if c = '"' then ['\\', '"']
  else if c = '\\' then ['\\', '\\']
  else if c = '\x08' then ['\\', 'b']
  else if c = '\x0c' then ['\\', 'f']
  else if c = '\n' then ['\\', 'n']
  else if c = '\r' then ['\\', 'r']
  else if c = '\t' then ['\\', 't']
  else if c.toNat < 0x20 then
    ['\\', 'u', '0', '0', hexChar (c.toNat / 16), hexChar (c.toNat % 16)]
  else [c]

/-- A string between its quotes. -/
def writeString (t : Text) : Text :=
  '"' :: t.flatMap escapeChar ++ ['"']

/-- A number. Floats are not written by this library. -/
def Number.write : Number → Text
  | .natural n => Text.ofNat n
  | .negative n => '-' :: Text.ofNat n
  | .float _ => "null".toList

mutual

/-- The text of a value. -/
def write : Json → Text
  | .null => "null".toList
  | .bool true => "true".toList
  | .bool false => "false".toList
  | .number n => n.write
  | .string t => writeString t
  | .array items => '[' :: writeItems items ++ [']']
  | .object fields => '\x7b' :: writeFields fields ++ ['\x7d']

/-- The items of a list with commas between them. -/
def writeItems : List Json → Text
  | [] => []
  | [item] => write item
  | item :: items => write item ++ ',' :: writeItems items

/-- The fields of an object with commas between them. -/
def writeFields : List (Text × Json) → Text
  | [] => []
  | [(key, value)] => writeString key ++ ':' :: write value
  | (key, value) :: fields => writeString key ++ ':' :: write value ++ ',' :: writeFields fields

end

end Typesweep.Json
