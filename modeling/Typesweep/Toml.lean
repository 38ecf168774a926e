import Typesweep.Text

/-!
# TOML documents

The part of TOML that settings are written in: top-level keys with strings, integers and arrays.
A document with anything else (tables, dotted keys, dates, floats, booleans), or one that is no
TOML at all, is not read; nor is one that gives a key twice.

* `Toml.read`: reading a document.
-/

namespace Typesweep.Toml

/-- A value of a document. -/
inductive Value
  | string (t : Text)
  | integer (n : Int)
  | array (items : List Value)

/-! ## Blanks and comments -/

/-- The white space within a line. -/
def isSpace (c : Char) : Bool :=
  c = ' ' || c = '\t'

/-- The text without the white space at its start. -/
def skipSpace (t : Text) : Text :=
  t.dropWhile isSpace

/-- Whether a character may only stand escaped in a string and not at all in a comment. -/
def isControl (c : Char) : Bool :=
  (c.toNat < 0x20 && c != '\t') || c = '\x7f'

/-- The text after a newline. -/
def newline? : Text → Option Text
  | '\n' :: rest => some rest
  | '\r' :: '\n' :: rest => some rest
  | _ => none

/-- The text from the end of a comment on, if one starts here, else the text itself; none if the
comment holds a control character. -/
def skipComment? (t : Text) : Option Text :=
  match t with
  | '#' :: rest =>
    let rest := rest.dropWhile fun c => !isControl c
    if rest = [] ∨ (newline? rest).isSome then some rest else none
  | _ => some t

/-- The text after blanks, comments and newlines. -/
def skipLines? : Nat → Text → Option Text
  | 0, t => some t
  | fuel + 1, t =>
    match skipComment? (skipSpace t) with
    | none => none
    | some t =>
      match newline? t with
      | some rest => skipLines? fuel rest
      | none => some t

/-! ## Strings -/

/-- The number that hexadecimal digits write. -/
def hexNumber? (digits : Text) : Option Nat :=
  digits.foldlM (fun n c => (Text.hexDigit? c).map (n * 16 + ·)) 0

/-- The character with a code written in hexadecimal digits, and the text after them. -/
def codeEscape? (digits : Nat) (t : Text) : Option (Char × Text) :=
  if t.length < digits then none
  else
    match hexNumber? (t.take digits) with
    | none => none
    | some n => if n.isValidChar then some (Char.ofNat n, t.drop digits) else none

/-- The character of an escape and the text after it, from after the backslash. -/
def escape? : Text → Option (Char × Text)
  | [] => none
  | c :: rest =>
    if c = '"' ∨ c = '\\' then some (c, rest)
    else if c = 'b' then some ('\x08', rest)
    else if c = 't' then some ('\t', rest)
    else if c = 'n' then some ('\n', rest)
    else if c = 'f' then some ('\x0c', rest)
    else if c = 'r' then some ('\r', rest)
    else if c = 'e' then some ('\x1b', rest)
    else if c = 'x' then codeEscape? 2 rest
    else if c = 'u' then codeEscape? 4 rest
    else if c = 'U' then codeEscape? 8 rest
    else none

/-- Puts a character in front of the string that was read. -/
def pushChar (c : Char) (r : Option (Text × Text)) : Option (Text × Text) :=
  r.map fun (s, rest) => (c :: s, rest)

/-- Reads a string on one line, from after its opening quote. -/
def readSingle (quote : Char) : Nat → Text → Option (Text × Text)
  | 0, _ => none
  | _ + 1, [] => none
  | fuel + 1, c :: rest =>
    if c = quote then some ([], rest)
    else if quote = '"' ∧ c = '\\' then
      match escape? rest with
      | some (e, rest) => pushChar e (readSingle quote fuel rest)
      | none => none
    else if isControl c then none
    else pushChar c (readSingle quote fuel rest)

/-- The text after blanks and newlines. -/
def skipBlankLines : Nat → Text → Text
  | 0, t => t
  | fuel + 1, t =>
    match newline? (skipSpace t) with
    | some rest => skipBlankLines fuel rest
    | none => skipSpace t

/-- The text after a backslash that ends a line, and all blanks and newlines after it. -/
def lineEscape? (t : Text) : Option Text :=
  (newline? (skipSpace t)).map fun rest => skipBlankLines rest.length rest

/-- Ends a string on several lines: of more quotes than three, up to two belong to it. -/
def endMulti (quote : Char) (t : Text) : Text × Text :=
  let extra := min 2 (t.takeWhile (· = quote)).length
  (List.replicate extra quote, t.drop extra)

/-- Reads a string on several lines, from after its opening quotes and the newline after them. -/
def readMulti (quote : Char) : Nat → Text → Option (Text × Text)
  | 0, _ => none
  | _ + 1, [] => none
  | fuel + 1, c :: rest =>
    if c = quote then
      match Text.after? [quote, quote] rest with
      | some rest => some (endMulti quote rest)
      | none => pushChar c (readMulti quote fuel rest)
    else if quote = '"' ∧ c = '\\' then
      match lineEscape? rest with
      | some rest => readMulti quote fuel rest
      | none =>
        match escape? rest with
        | some (e, rest) => pushChar e (readMulti quote fuel rest)
        | none => none
    else if (newline? (c :: rest)).isSome then pushChar c (readMulti quote fuel rest)
    else if isControl c then none
    else pushChar c (readMulti quote fuel rest)

/-- Reads a string of either kind, from after its first quote. -/
def readString (quote : Char) (t : Text) : Option (Text × Text) :=
  match Text.after? [quote, quote] t with
  | some rest => readMulti quote (rest.length + 1) ((newline? rest).getD rest)
  | none => readSingle quote (t.length + 1) t

/-! ## Integers -/

/-- The value of a digit in a base. -/
def digitIn? (base : Nat) (c : Char) : Option Nat :=
  match Text.hexDigit? c with
  | some d => if d < base then some d else none
  | none => none

/-- The digits of a numeral: an underscore may stand between two of them. -/
def ungroup? (t : Text) : Option Text :=
  let groups := Text.splitOn '_' t
  if groups.all fun g => !g.isEmpty then some groups.flatten else none

/-- The number that a numeral in a base writes. -/
def numeral? (base : Nat) (t : Text) : Option Nat := do
  let digits ← ungroup? t
  digits.foldlM (fun n c => (digitIn? base c).map (n * base + ·)) 0

/-- The number that a decimal numeral writes; it does not start with a zero but for zero itself. -/
def decimal? (t : Text) : Option Nat :=
  match t with
  | '0' :: _ :: _ => none
  | _ => numeral? 10 t

/-- The integer that a word writes. -/
def integer? (word : Text) : Option Int :=
  match word with
  | '0' :: 'x' :: digits => (numeral? 16 digits).map Int.ofNat
  | '0' :: 'o' :: digits => (numeral? 8 digits).map Int.ofNat
  | '0' :: 'b' :: digits => (numeral? 2 digits).map Int.ofNat
  | '+' :: digits => (decimal? digits).map Int.ofNat
  | '-' :: digits => (decimal? digits).map fun n => -(n : Int)
  | digits => (decimal? digits).map Int.ofNat

/-- Whether a character can be in a word that writes a number. -/
def isWordChar (c : Char) : Bool :=
  c.isAlphanum || c = '_' || c = '+' || c = '-' || c = '.' || c = ':'

/-! ## Values and documents -/

mutual

/-- Reads a value. -/
def readValue : Nat → Text → Option (Value × Text)
  | 0, _ => none
  | _ + 1, [] => none
  | fuel + 1, c :: rest =>
    if c = '"' ∨ c = '\x27' then
      (readString c rest).map fun (s, rest) => (.string s, rest)
    else if c = '[' then (readItems fuel rest).map fun (items, rest) => (.array items, rest)
    else
      let word := (c :: rest).takeWhile isWordChar
      (integer? word).map fun n => (.integer n, (c :: rest).dropWhile isWordChar)

/-- Reads the items of an array up to and with its closing bracket. The last one may be followed by
a comma. -/
def readItems : Nat → Text → Option (List Value × Text)
  | 0, _ => none
  | fuel + 1, t =>
    match skipLines? (t.length + 1) t with
    | none => none
    | some (']' :: rest) => some ([], rest)
    | some t =>
      match readValue fuel t with
      | none => none
      | some (item, rest) =>
        match skipLines? (rest.length + 1) rest with
        | some (',' :: rest) =>
          (readItems fuel rest).map fun (items, rest) => (item :: items, rest)
        | some (']' :: rest) => some ([item], rest)
        | _ => none

end

/-- Whether a character can be in a key without quotes. -/
def isKeyChar (c : Char) : Bool :=
  c.isAlphanum || c = '_' || c = '-'

/-- Reads a key. -/
def readKey (t : Text) : Option (Text × Text) :=
  match t with
  | [] => none
  | c :: rest =>
    if c = '"' ∨ c = '\x27' then readSingle c (rest.length + 1) rest
    else
      match t.takeWhile isKeyChar with
      | [] => none
      | key => some (key, t.dropWhile isKeyChar)

/-- Reads a key with its value, and the comment after it, up to the end of the line. -/
def readField (t : Text) : Option ((Text × Value) × Text) := do
  let (key, t) ← readKey t
  let t ← Text.after? ['='] (skipSpace t)
  let t := skipSpace t
  let (value, t) ← readValue (2 * t.length + 2) t
  let t ← skipComment? (skipSpace t)
  return ((key, value), t)

/-- Reads the fields of a document, each on lines of its own. -/
def readFields : Nat → Text → Option (List (Text × Value))
  | 0, _ => none
  | fuel + 1, t =>
    match skipLines? (t.length + 1) t with
    | none => none
    | some [] => some []
    | some t =>
      match readField t with
      | none => none
      | some (field, []) => some [field]
      | some (field, rest) =>
        match newline? rest with
        | none => none
        | some rest => (readFields fuel rest).map (field :: ·)

/-- Whether no key is there twice. -/
def keysAreDistinct : List (Text × Value) → Bool
  | [] => true
  | (key, _) :: fields => fields.all (fun f => f.1 != key) && keysAreDistinct fields

/-- Reads a document. -/
def read (t : Text) : Option (List (Text × Value)) :=
  let t := match t with
    | '\ufeff' :: rest => rest
    | _ => t
  match readFields (t.length + 1) t with
  | some fields => if keysAreDistinct fields then some fields else none
  | none => none

end Typesweep.Toml
