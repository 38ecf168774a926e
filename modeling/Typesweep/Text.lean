/-!
# Text

A text is the sequence of its characters. Rule lines, patterns, configuration files and checker
output are all read and written as texts, so that every reader of this library is a recursion on a
list. Paths are kept as bytes (`RawText`), which need not be those of any text.

This module holds the operations that the readers share: cutting at a separator (`Text.splitOn`),
cutting into lines (`Text.lines`), trimming a class of characters at either end, and decimal
numerals.
-/

namespace Typesweep

/-- A text is the sequence of its characters. -/
abbrev Text := List Char

namespace Text

/-! ## Cutting -/

section Cutting

-- The units are the characters of a text, or the bytes of one that is kept as it came.
variable {α : Type}

/-- The pieces of a text between the occurrences of `sep`; a text without `sep` is one piece. -/
def splitOn [DecidableEq α] (sep : α) : List α → List (List α)
  | [] => [[]]
  | c :: rest =>
    if c = sep then [] :: splitOn sep rest
    else
      match splitOn sep rest with
      | [] => [[c]]
      | piece :: pieces => (c :: piece) :: pieces

/-- The pieces put together again with `sep` between them. -/
def joinWith (sep : List α) : List (List α) → List α
  | [] => []
  | [piece] => piece
  | piece :: pieces => piece ++ sep ++ joinWith sep pieces

end Cutting

/-- The text after `lead`, if the text starts with it. -/
def after? (lead t : Text) : Option Text :=
  lead.isPrefixOf? t

/-- Whether the text ends with `tail`. -/
def endsWith (tail t : Text) : Bool :=
  tail.isSuffixOf t

/-- The text up to the first `sep` and the text after it, if there is one. -/
def cutAt? (sep : Char) : Text → Option (Text × Text)
  | [] => none
  | c :: rest =>
    if c = sep then some ([], rest)
    else (cutAt? sep rest).map fun (before, later) => (c :: before, later)

/-! ## Trimming -/

/-- The text without the characters of the class `drop` at its end. -/
def trimEnd (drop : Char → Bool) (t : Text) : Text :=
  (t.reverse.dropWhile drop).reverse

/-- The text without the characters of the class `drop` at its start. -/
def trimStart (drop : Char → Bool) (t : Text) : Text :=
  t.dropWhile drop

/-- The text without the characters of the class `drop` at its two ends. -/
def trim (drop : Char → Bool) (t : Text) : Text :=
  trimEnd drop (trimStart drop t)

/-- Without the carriage returns at the end, however many there are. -/
def dropCarriageReturns (t : Text) : Text :=
  trimEnd (· = '\r') t

/-! ## Lines -/

/-- A line that was ended by a newline, without the carriage return of a two-character ending. -/
def dropLineEnding (line : Text) : Text :=
  match line.reverse with
  | '\r' :: rest => rest.reverse
  | _ => line

/-- The lines of a list of pieces between newlines. The last piece was not ended by a newline: it
is no line when it is empty, and keeps its carriage return. -/
def linesOfPieces : List Text → List Text
  | [] => []
  | [last] => if last = [] then [] else [last]
  | piece :: pieces => dropLineEnding piece :: linesOfPieces pieces

/-- The lines of a text. A line ends at a newline or at a carriage return and a newline. -/
def lines (t : Text) : List Text :=
  linesOfPieces (splitOn '\n' t)

/-! ## Numerals -/

/-- The value of an ASCII digit. -/
def digit? (c : Char) : Option Nat :=
  if '0' ≤ c ∧ c ≤ '9' then some (c.toNat - '0'.toNat) else none

/-- Whether the character is an ASCII digit. -/
def isDigit (c : Char) : Bool :=
  (digit? c).isSome

/-- The number that a non-empty row of ASCII digits writes, continuing from `value`. -/
def numeralFrom (value : Nat) : Text → Option Nat
  | [] => some value
  | c :: rest =>
    match digit? c with
    | none => none
    | some d => numeralFrom (value * 10 + d) rest

/-- The number that a text of ASCII digits writes. -/
def numeral? (t : Text) : Option Nat :=
  if t = [] then none else numeralFrom 0 t

/-- The decimal digits of a number. -/
def ofNat (n : Nat) : Text :=
  Nat.toDigits 10 n

/-- The value of a hexadecimal digit of either case. -/
def hexDigit? (c : Char) : Option Nat :=
  if '0' ≤ c ∧ c ≤ '9' then some (c.toNat - '0'.toNat)
  else if 'a' ≤ c ∧ c ≤ 'f' then some (c.toNat - 'a'.toNat + 10)
  else if 'A' ≤ c ∧ c ≤ 'F' then some (c.toNat - 'A'.toNat + 10)
  else none

/-- Number of bytes of the text in UTF-8. -/
def byteLength (t : Text) : Nat :=
  t.foldr (fun c size => c.utf8Size + size) 0

end Text

end Typesweep
