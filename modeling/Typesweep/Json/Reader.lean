import Typesweep.Json.Fault

/-!
# Reading JSON

The reader goes over the text once, from left to right, so that the first fault is the one that
is reported. Values may be nested 127 deep; a value that is only passed over (`skipValue`) may be
nested as deep as it likes, and neither its numbers nor its escapes are decoded.

* `readString`, `readNumber`, `readValue`: reading one value.
* `skipValue`: passing over one value.
* `Json.read`: reading a whole text.
-/

namespace Typesweep.Json

/-- The white space of JSON. -/
def isSpace (c : Char) : Bool :=
  c = ' ' || c = '\n' || c = '\t' || c = '\r'

/-- The text without the white space at its start. -/
def skipSpace (t : Text) : Text :=
  t.dropWhile isSpace

/-! ## Literal names -/

/-- Passes over the remaining characters of a literal name. -/
def readIdent : Text → Text → Except Fault Text
  | [], rest => .ok rest
  | _ :: _, [] => faultBefore .endInValue []
  | c :: ident, d :: rest => if c = d then readIdent ident rest else faultBefore .expectedIdent rest

/-! ## Strings -/

/-- The text without the characters of its first `count` bytes. -/
def dropBytes : Nat → Text → Text
  | 0, t => t
  | _ + 1, [] => []
  | count + 1, c :: rest => dropBytes (count + 1 - c.utf8Size) rest

/-- A fault in four hexadecimal digits that start at `t`. -/
def hexFault {α : Type} (t : Text) : Except Fault α :=
  if Text.byteLength t < 4 then faultBefore .endInString [] else
    faultBefore .invalidEscape (dropBytes 4 t)

/-- The number that four hexadecimal digits write. -/
def hex4? (a b c d : Char) : Option Nat := do
  let a ← Text.hexDigit? a
  let b ← Text.hexDigit? b
  let c ← Text.hexDigit? c
  let d ← Text.hexDigit? d
  return ((a * 16 + b) * 16 + c) * 16 + d

/-- The first half of a pair of code units. -/
def isLeading (n : Nat) : Bool := 0xD800 ≤ n && n ≤ 0xDBFF

/-- The second half of a pair of code units. -/
def isTrailing (n : Nat) : Bool := 0xDC00 ≤ n && n ≤ 0xDFFF

/-- The character of a pair of code units. -/
def pairChar (leading trailing : Nat) : Char :=
  Char.ofNat (0x10000 + (leading - 0xD800) * 0x400 + (trailing - 0xDC00))

/-- A fault after a first half at `t`, where no second half follows. -/
def pairFault {α : Type} : Text → Except Fault α
  | [] => faultBefore .endInString []
  | '\\' :: [] => faultBefore .endInString []
  | '\\' :: 'u' :: rest => hexFault rest
  | '\\' :: _ :: rest => faultBefore .unfinishedPair rest
  | _ :: rest => faultBefore .unfinishedPair rest

/-- The character that a one-character escape stands for. -/
def shortEscape? (c : Char) : Option Char :=
  if c = '"' ∨ c = '\\' ∨ c = '/' then some c
  else if c = 'b' then some '\x08'
  else if c = 'f' then some '\x0c'
  else if c = 'n' then some '\n'
  else if c = 'r' then some '\r'
  else if c = 't' then some '\t'
  else none

/-- Puts a character in front of the string that was read. -/
def pushChar (c : Char) (r : Reading Text) : Reading Text :=
  r.map fun (s, rest) => (c :: s, rest)

/-- Reads the rest of a string, from after its opening quote. -/
def readString : Text → Reading Text
  | [] => faultBefore .endInString []
  | '"' :: rest => .ok ([], rest)
  | '\\' :: 'u' :: a :: b :: c :: d :: rest =>
    match hex4? a b c d with
    | none => hexFault (a :: b :: c :: d :: rest)
    | some n =>
      if isTrailing n then faultBefore .loneSurrogate rest
      else if isLeading n then
        match rest with
        | '\\' :: 'u' :: e :: f :: g :: h :: later =>
          match hex4? e f g h with
          | none => hexFault (e :: f :: g :: h :: later)
          | some m =>
            if isTrailing m then pushChar (pairChar n m) (readString later)
            else faultBefore .loneSurrogate later
        | other => pairFault other
      else pushChar (Char.ofNat n) (readString rest)
  | '\\' :: 'u' :: rest => hexFault rest
  | '\\' :: c :: rest =>
    match shortEscape? c with
    | some e => pushChar e (readString rest)
    | none => faultBefore .invalidEscape rest
  | '\\' :: [] => faultBefore .endInString []
  | c :: rest =>
    if c.toNat < 0x20 then faultBefore .controlCharacter rest
    else pushChar c (readString rest)

/-- Passes over the rest of a string, from after its opening quote. Code units are not paired. -/
def skipString : Text → Except Fault Text
  | [] => faultBefore .endInString []
  | '"' :: rest => .ok rest
  | '\\' :: 'u' :: a :: b :: c :: d :: rest =>
    match hex4? a b c d with
    | none => hexFault (a :: b :: c :: d :: rest)
    | some _ => skipString rest
  | '\\' :: 'u' :: rest => hexFault rest
  | '\\' :: c :: rest =>
    match shortEscape? c with
    | some _ => skipString rest
    | none => faultBefore .invalidEscape rest
  | '\\' :: [] => faultBefore .endInString []
  | c :: rest =>
    if c.toNat < 0x20 then faultBefore .controlCharacter (c :: rest) else skipString rest

/-! ## Numbers -/

/-- The largest number of 64 bits. -/
def maxWord : Nat := UInt64.size - 1

/-- Appends the digits at the start of a text to a number while it fits 64 bits. Gives the number,
how many digits were taken, and the text after them. -/
def takeDigits (value taken : Nat) : Text → Nat × Nat × Text
  | [] => (value, taken, [])
  | c :: rest =>
    match Text.digit? c with
    | none => (value, taken, c :: rest)
    | some d =>
      if maxWord < value * 10 + d then (value, taken, c :: rest)
      else takeDigits (value * 10 + d) (taken + 1) rest

/-- Whether the text starts with a digit. -/
def startsWithDigit : Text → Bool
  | c :: _ => Text.isDigit c
  | [] => false

/-- Number of digits at the start of a text, and the text after them. -/
def countDigits (t : Text) : Nat × Text :=
  ((t.takeWhile Text.isDigit).length, t.dropWhile Text.isDigit)

/-- Largest exponent that is read digit by digit. -/
def maxExponent : Nat := 2147483647

/-- `10^n` as a float. -/
def powerOfTen (n : Nat) : Float := Float.ofScientific 1 false n

/-- `f * 10^exponent`, in at most `rounds` steps of which each but the last divides by `10^308`;
nothing if the result is not finite. -/
def scaleFloat : Nat → Float → Int → Option Float
  | 0, f, _ => some f
  | rounds + 1, f, exponent =>
    if exponent.natAbs ≤ 308 then
      let power := powerOfTen exponent.natAbs
      let g := if 0 ≤ exponent then f * power else f / power
      if g.isInf then none else some g
    else if f == 0.0 then some f
    else if 0 ≤ exponent then none
    else scaleFloat rounds (f / powerOfTen 308) (exponent + 308)

/-- The float of `significand * 10^exponent` with its sign. The significand is rounded first, then
scaled; three steps bring every significand of 64 bits to zero. -/
def floatNumber (negative : Bool) (significand : Nat) (exponent : Int) (rest : Text) :
    Reading Number :=
  match scaleFloat 4 significand.toUInt64.toFloat exponent with
  | none => faultBefore .numberOutOfRange rest
  | some f => .ok (.float (if negative then -f else f).toBits, rest)

/-- Reads an exponent, from after its `e`. -/
def readExponent (negative : Bool) (significand : Nat) (start : Int) (t : Text) :
    Reading Number :=
  let (down, t) := match t with
    | '+' :: rest => (false, rest)
    | '-' :: rest => (true, rest)
    | _ => (false, t)
  match t with
  | [] => faultBefore .endInValue []
  | c :: rest =>
    if Text.isDigit c then
      let (count, after) := countDigits (c :: rest)
      match Text.numeral? ((c :: rest).take count) with
      | none => faultBefore .invalidNumber rest
      | some e =>
        if maxExponent < e then
          if significand ≠ 0 ∧ ¬down then faultBefore .numberOutOfRange after
          else .ok (.float (if negative then (-0.0 : Float) else 0.0).toBits, after)
        else floatNumber negative significand (if down then start - e else start + e) after
    else faultBefore .invalidNumber rest

/-- Ends a number with a fraction or too many digits: an exponent may follow. -/
def finishFloat (negative : Bool) (significand : Nat) (exponent : Int) (t : Text) :
    Reading Number :=
  match t with
  | c :: rest =>
    if c = 'e' ∨ c = 'E' then readExponent negative significand exponent rest
    else floatNumber negative significand exponent t
  | [] => floatNumber negative significand exponent t

/-- Reads a fraction, from after its point. Digits that no longer fit the significand are passed
over. -/
def readFraction (negative : Bool) (significand : Nat) (exponent : Int) (t : Text) :
    Reading Number :=
  let (value, taken, rest) := takeDigits significand 0 t
  if startsWithDigit rest then
    finishFloat negative value (exponent - taken) (rest.dropWhile Text.isDigit)
  else if taken = 0 then
    match rest with
    | [] => faultAt .endInValue []
    | _ => faultAt .invalidNumber rest
  else finishFloat negative value (exponent - taken) rest

/-- Ends a number after its integer digits. -/
def finishNumber (negative : Bool) (value : Nat) (t : Text) : Reading Number :=
  match t with
  | c :: rest =>
    if c = '.' then readFraction negative value 0 rest
    else if c = 'e' ∨ c = 'E' then readExponent negative value 0 rest
    else .ok (whole, t)
  | [] => .ok (whole, t)
where
  /-- The number without fraction and exponent. -/
  whole : Number :=
    if ¬negative then .natural value
    else if 0 < value ∧ value ≤ UInt64.size / 2 then .negative value
    else .float (-value.toUInt64.toFloat).toBits

/-- Reads a number, from after its sign. -/
def readNumber (negative : Bool) : Text → Reading Number
  | [] => faultBefore .endInValue []
  | '0' :: rest =>
    if startsWithDigit rest then faultAt .invalidNumber rest else finishNumber negative 0 rest
  | c :: rest =>
    match Text.digit? c with
    | none => faultBefore .invalidNumber rest
    | some d =>
      let (value, _, later) := takeDigits d 0 rest
      if startsWithDigit later then
        let (count, after) := countDigits later
        match after with
        | '.' :: fraction => readFraction negative value count fraction
        | _ => finishFloat negative value count after
      else finishNumber negative value later

/-- Passes over the digits of an exponent, from after its `e`. -/
def skipExponent (t : Text) : Except Fault Text :=
  let t := match t with
    | '+' :: rest => rest
    | '-' :: rest => rest
    | _ => t
  if startsWithDigit t then .ok (t.dropWhile Text.isDigit) else faultAt .invalidNumber t

/-- Passes over what may follow the integer digits of a number. -/
def skipFraction (t : Text) : Except Fault Text :=
  match t with
  | '.' :: rest =>
    if startsWithDigit rest then
      match rest.dropWhile Text.isDigit with
      | 'e' :: later => skipExponent later
      | 'E' :: later => skipExponent later
      | later => .ok later
    else faultAt .invalidNumber rest
  | 'e' :: rest => skipExponent rest
  | 'E' :: rest => skipExponent rest
  | _ => .ok t

/-- Passes over a number, from after its sign. -/
def skipNumber (t : Text) : Except Fault Text :=
  match t with
  | '0' :: rest => if startsWithDigit rest then faultAt .invalidNumber rest else skipFraction rest
  | _ =>
    if startsWithDigit t then skipFraction (t.dropWhile Text.isDigit) else
      faultAt .invalidNumber t

/-! ## Values -/

/-- Values may be nested this deep, the outermost one included. -/
def maxDepth : Nat := 127

/-- Passes over `:` and the white space before it. -/
def readColon (t : Text) : Except Fault Text :=
  match skipSpace t with
  | [] => faultAt .endInObject []
  | ':' :: rest => .ok rest
  | t => faultAt .expectedColon t

/-- What a list or an object goes on with. -/
inductive Next
  | item (t : Text)
  | done (t : Text)

/-- Goes to the next item of a list. -/
def nextItem (first : Bool) (t : Text) : Except Fault Next :=
  match skipSpace t with
  | [] => faultAt .endInList []
  | ']' :: rest => .ok (.done (']' :: rest))
  | c :: rest =>
    if first then .ok (.item (c :: rest))
    else if c = ',' then
      match skipSpace rest with
      | [] => faultAt .endInValue []
      | ']' :: later => faultAt .trailingComma (']' :: later)
      | later => .ok (.item later)
    else faultAt .expectedListEnd (c :: rest)

/-- Goes to the next key of an object, up to its opening quote. -/
def nextKey (first : Bool) (t : Text) : Except Fault Next :=
  match skipSpace t with
  | [] => faultAt .endInObject []
  | '\x7d' :: rest => .ok (.done ('\x7d' :: rest))
  | c :: rest =>
    if first then
      if c = '"' then .ok (.item (c :: rest)) else faultAt .keyNotString (c :: rest)
    else if c = ',' then
      match skipSpace rest with
      | [] => faultAt .endInValue []
      | '"' :: later => .ok (.item ('"' :: later))
      | '\x7d' :: later => faultAt .trailingComma ('\x7d' :: later)
      | later => faultAt .keyNotString later
    else faultAt .expectedObjectEnd (c :: rest)

/-- Ends a list: its closing bracket must follow. -/
def endList (t : Text) : Except Fault Text :=
  match skipSpace t with
  | [] => faultAt .endInList []
  | ']' :: rest => .ok rest
  | ',' :: rest =>
    match skipSpace rest with
    | ']' :: later => faultAt .trailingComma (']' :: later)
    | later => faultAt .trailingCharacters later
  | t => faultAt .trailingCharacters t

mutual

/-- Reads a value. `depth` is how deep values may still be nested, and `fuel` bounds the number of
nested steps by the length of the text. -/
def readValue : Nat → Nat → Text → Reading Json
  | 0, _, t => faultAt .tooDeep t
  | fuel + 1, depth, t =>
    match skipSpace t with
    | [] => faultAt .endInValue []
    | 'n' :: rest => (readIdent ['u', 'l', 'l'] rest).map fun rest => (.null, rest)
    | 't' :: rest => (readIdent ['r', 'u', 'e'] rest).map fun rest => (.bool true, rest)
    | 'f' :: rest => (readIdent ['a', 'l', 's', 'e'] rest).map fun rest => (.bool false, rest)
    | '"' :: rest => (readString rest).map fun (s, rest) => (.string s, rest)
    | '-' :: rest => (readNumber true rest).map fun (n, rest) => (.number n, rest)
    | '[' :: rest =>
      match depth with
      | 0 => faultBefore .tooDeep rest
      | depth + 1 => (readItems fuel depth true rest).map fun (items, rest) => (.array items, rest)
    | '\x7b' :: rest =>
      match depth with
      | 0 => faultBefore .tooDeep rest
      | depth + 1 =>
        (readFields fuel depth true [] rest).map fun (fields, rest) => (.object fields, rest)
    | c :: rest =>
      if Text.isDigit c then (readNumber false (c :: rest)).map fun (n, rest) => (.number n, rest)
      else faultAt .expectedValue (c :: rest)

/-- Reads the items of a list up to and with its closing bracket. -/
def readItems : Nat → Nat → Bool → Text → Reading (List Json)
  | 0, _, _, t => faultAt .tooDeep t
  | fuel + 1, depth, first, t =>
    match nextItem first t with
    | .error f => .error f
    | .ok (.done t) => .ok ([], t.drop 1)
    | .ok (.item t) =>
      match readValue fuel depth t with
      | .error f => .error f
      | .ok (item, rest) =>
        (readItems fuel depth false rest).map fun (items, rest) => (item :: items, rest)

/-- Reads the fields of an object up to and with its closing brace; of a repeated key the last
value counts. -/
def readFields :
    Nat → Nat → Bool → List (Text × Json) → Text → Reading (List (Text × Json))
  | 0, _, _, _, t => faultAt .tooDeep t
  | fuel + 1, depth, first, fields, t =>
    match nextKey first t with
    | .error f => .error f
    | .ok (.done t) => .ok (fields, t.drop 1)
    | .ok (.item t) =>
      match readString (t.drop 1) with
      | .error f => .error f
      | .ok (key, rest) =>
        match readColon rest with
        | .error f => .error f
        | .ok rest =>
          match readValue fuel depth rest with
          | .error f => .error f
          | .ok (value, rest) => readFields fuel depth false (setField key value fields) rest

end

mutual

/-- Passes over a value. -/
def skipValue : Nat → Text → Except Fault Text
  | 0, t => faultAt .tooDeep t
  | fuel + 1, t =>
    match skipSpace t with
    | [] => faultAt .endInValue []
    | 'n' :: rest => readIdent ['u', 'l', 'l'] rest
    | 't' :: rest => readIdent ['r', 'u', 'e'] rest
    | 'f' :: rest => readIdent ['a', 'l', 's', 'e'] rest
    | '"' :: rest => skipString rest
    | '-' :: rest => skipNumber rest
    | '[' :: rest =>
      match skipSpace rest with
      | [] => faultAt .endInList []
      | ']' :: later => .ok later
      | later => skipItems fuel later
    | '\x7b' :: rest =>
      match skipSpace rest with
      | '\x7d' :: later => .ok later
      | later => skipFields fuel later
    | c :: rest =>
      if Text.isDigit c then skipNumber (c :: rest) else faultAt .expectedValue (c :: rest)

/-- Passes over the items of a list from the next one on, up to and with its closing bracket. -/
def skipItems : Nat → Text → Except Fault Text
  | 0, t => faultAt .tooDeep t
  | fuel + 1, t =>
    match skipValue fuel t with
    | .error f => .error f
    | .ok rest =>
      match skipSpace rest with
      | [] => faultAt .endInList []
      | ',' :: later => skipItems fuel later
      | ']' :: later => .ok later
      | later => faultAt .expectedListEnd later

/-- Passes over the fields of an object from the next one on, up to and with its closing brace. -/
def skipFields : Nat → Text → Except Fault Text
  | 0, t => faultAt .tooDeep t
  | fuel + 1, t =>
    match skipSpace t with
    | [] => faultAt .endInObject []
    | '"' :: rest =>
      match skipString rest with
      | .error f => .error f
      | .ok rest =>
        match readColon rest with
        | .error f => .error f
        | .ok rest =>
          match skipValue fuel rest with
          | .error f => .error f
          | .ok rest =>
            match skipSpace rest with
            | [] => faultAt .endInObject []
            | ',' :: later => skipFields fuel later
            | '\x7d' :: later => .ok later
            | later => faultAt .expectedObjectEnd later
    | later => faultAt .keyNotString later

end

/-- Nested steps that a text can need: each goes on by a character or into a value. -/
def fuelFor (t : Text) : Nat :=
  2 * t.length + 2

/-- Ends a text: nothing but white space may follow. -/
def endText (t : Text) : Except Fault Unit :=
  match skipSpace t with
  | [] => .ok ()
  | t => faultAt .trailingCharacters t

/-- Reads a text that is one value. -/
def read (t : Text) : Except Fault Json :=
  match readValue (fuelFor t) maxDepth t with
  | .error f => .error f
  | .ok (value, rest) => (endText rest).map fun _ => value

end Typesweep.Json
