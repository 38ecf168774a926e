import Typesweep.Text

/-!
# UTF-8

Texts as bytes, and bytes as texts. The names of a file tree are bytes, and may be none that a text
has: what is shown for such a name, and compared with patterns, is its text as `Text.ofBytes` reads
it, and two names can have the same one.

* `RawText`: the bytes of a name or path.
* `Text.toUtf8`, `Text.ofUtf8?`: the bytes of a text, and the text of bytes that are UTF-8.
* `Text.ofBytes`: the text of any bytes. Bytes that start a character but do not finish it are one
  replacement character; every other byte that belongs to no character is one of its own.
-/

namespace Typesweep

/-- A text as a system keeps it that does not look at its characters. -/
abbrev RawText := List UInt8

namespace RawText

/-- The byte of a slash. -/
@[match_pattern]
abbrev slash : UInt8 := 47

/-- The byte of a dot. -/
@[match_pattern]
abbrev dot : UInt8 := 46

end RawText

namespace Text

/-- The bytes of a text. -/
def toUtf8 (t : Text) : RawText :=
  t.flatMap String.utf8EncodeChar

/-- The text of bytes, if they are UTF-8. -/
def ofUtf8? (bytes : RawText) : Option Text :=
  (String.fromUTF8? ⟨bytes.toArray⟩).map String.toList

/-- Stands for bytes that belong to no character. -/
def replacement : Char := '\ufffd'

/-- A character of which the first bytes have been read. -/
structure Begun where
  /-- What they give to its code. -/
  value : Nat
  /-- How many of its bytes are to come. -/
  more : Nat
  /-- The least byte that may come next. -/
  low : UInt8
  /-- The greatest byte that may come next. -/
  high : UInt8

/-- The character that a byte from `0x80` on begins. -/
def Begun.ofLead? (b : UInt8) : Option Begun :=
  let code (length : Nat) : Nat := b.toNat % Nat.pow 2 (7 - length)
  if 0xc2 ≤ b && b ≤ 0xdf then some ⟨code 2, 1, 0x80, 0xbf⟩
  else if b = 0xe0 then some ⟨code 3, 2, 0xa0, 0xbf⟩
  else if b = 0xed then some ⟨code 3, 2, 0x80, 0x9f⟩
  else if 0xe1 ≤ b && b ≤ 0xef then some ⟨code 3, 2, 0x80, 0xbf⟩
  else if b = 0xf0 then some ⟨code 4, 3, 0x90, 0xbf⟩
  else if 0xf1 ≤ b && b ≤ 0xf3 then some ⟨code 4, 3, 0x80, 0xbf⟩
  else if b = 0xf4 then some ⟨code 4, 3, 0x80, 0x8f⟩
  else none

/-- The text of bytes that come after those of a begun character, if there is one. -/
def decodeFrom : Option Begun → RawText → Text
  | none, [] => []
  | some _, [] => [replacement]
  | begun, b :: rest =>
    let fresh : Unit → Text := fun _ =>
      if b < 0x80 then Char.ofNat b.toNat :: decodeFrom none rest
      else
        match Begun.ofLead? b with
        | some lead => decodeFrom (some lead) rest
        | none => replacement :: decodeFrom none rest
    match begun with
    | none => fresh ()
    | some c =>
      if c.low ≤ b && b ≤ c.high then
        let value := c.value * 64 + b.toNat % 64
        if c.more ≤ 1 then Char.ofNat value :: decodeFrom none rest
        else decodeFrom (some ⟨value, c.more - 1, 0x80, 0xbf⟩) rest
      else replacement :: fresh ()

/-- The text of bytes. -/
def ofBytes (bytes : RawText) : Text :=
  decodeFrom none bytes

end Text

/-- The bytes of a string. -/
def RawText.ofString (s : String) : RawText :=
  Text.toUtf8 s.toList

end Typesweep
