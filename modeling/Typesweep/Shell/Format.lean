import Typesweep.Shell.Arithmetic
import Typesweep.Shell.Command

/-!
# Formatted output

The escapes that `echo` and `printf` write bytes with, and the conversions of `printf`.

* `unescape`: the bytes of a text with escapes.
* `Format.render`: a format with its arguments.
-/

namespace Typesweep.Shell

/-! ## Escapes -/

/-- The value of an octal digit. -/
def octalDigit? (c : Char) : Option Nat :=
  if '0' ≤ c ∧ c ≤ '7' then some (c.toNat - '0'.toNat) else none

/-- The byte of a short escape. -/
def shortEscape? (c : Char) : Option UInt8 :=
  match c with
  | '\\' => some 92
  | 'a' => some 7
  | 'b' => some 8
  | 'f' => some 12
  | 'n' => some 10
  | 'r' => some 13
  | 't' => some 9
  | 'v' => some 11
  | _ => none

/-- The bytes of one character. -/
def charBytes (c : Char) : List UInt8 :=
  toRaw [c]

/-- How the escapes of an argument differ from those of a format. -/
inductive Escapes
  /-- An octal number has at most three digits. -/
  | format
  /-- An octal number may have a zero before these, and there is an escape that asks to stop. -/
  | argument
  deriving DecidableEq, Repr

/-- The bytes of a text with escapes, and whether it asked to stop. `octal` is the octal number
that is being read, with how many more digits it may have. -/
def unescapeFrom (kind : Escapes) (octal : Option (Nat × Nat)) : Text → List UInt8 × Bool
  | [] => ((octal.map fun o => UInt8.ofNat o.1).toList, false)
  | c :: rest =>
    let plain : Unit → List UInt8 × Bool := fun _ =>
      if c = '\\' then
        match rest with
        | [] => ([92], false)
        | d :: later =>
          if d = 'c' ∧ kind = .argument then ([], true)
          else
            match octalDigit? d, shortEscape? d with
            | some n, _ =>
              unescapeFrom kind (some (n, if n = 0 ∧ kind = .argument then 3 else 2)) later
            | _, some b =>
              let (bytes, stops) := unescapeFrom kind none later
              (b :: bytes, stops)
            | _, _ =>
              let (bytes, stops) := unescapeFrom kind none (d :: later)
              (92 :: bytes, stops)
      else
        let (bytes, stops) := unescapeFrom kind none rest
        (charBytes c ++ bytes, stops)
    match octal with
    | none => plain ()
    | some (value, digits) =>
      match octalDigit? c, digits with
      | some n, digits + 1 => unescapeFrom kind (some (value * 8 + n, digits)) rest
      | _, _ =>
        let (bytes, stops) := plain ()
        (UInt8.ofNat value :: bytes, stops)

/-- The bytes of an argument with escapes, and whether it asked to stop. -/
def unescape (t : Text) : List UInt8 × Bool :=
  unescapeFrom .argument none t

/-- The bytes of arguments with escapes and blanks between them, up to one that asks to stop, and
whether one did. -/
def unescapeAll : List Text → List UInt8 × Bool
  | [] => ([], false)
  | [t] => unescape t
  | t :: rest =>
    match unescape t with
    | (bytes, true) => (bytes, true)
    | (bytes, false) =>
      let (more, stops) := unescapeAll rest
      (bytes ++ 32 :: more, stops)

/-! ## Conversions -/

namespace Format

/-- How the text of a conversion is laid out. -/
structure Layout where
  /-- At the left side of its width. -/
  left : Bool := false
  zero : Bool := false
  /-- A number that is not negative starts with a plus sign. -/
  plus : Bool := false
  /-- A number that is not negative starts with a blank. -/
  blank : Bool := false
  /-- Least number of characters. -/
  width : Nat := 0
  /-- Most characters of a text, or least digits of a number. -/
  precision : Option Nat := none

/-- The layout with the flags at the start of a format, and what comes after them. -/
def flagsFrom (l : Layout) : List UInt8 → Layout × List UInt8
  | 45 :: rest => flagsFrom { l with left := true } rest
  | 48 :: rest => flagsFrom { l with zero := true } rest
  | 43 :: rest => flagsFrom { l with plus := true } rest
  | 32 :: rest => flagsFrom { l with blank := true } rest
  | 35 :: rest => flagsFrom l rest
  | rest => (l, rest)

/-- The number at the start of a format, and what comes after it. -/
def numberFrom (n : Nat) : List UInt8 → Nat × List UInt8
  | b :: rest =>
    if 48 ≤ b && b ≤ 57 then numberFrom (n * 10 + (b.toNat - 48)) rest else (n, b :: rest)
  | [] => (n, [])

/-- The layout at the start of a format, and what comes after it. -/
def layoutOf (format : List UInt8) : Layout × List UInt8 :=
  let (l, rest) := flagsFrom {} format
  let (width, rest) := numberFrom 0 rest
  match rest with
  | 46 :: rest =>
    let (precision, rest) := numberFrom 0 rest
    ({ l with width, precision := some precision }, rest)
  | _ => ({ l with width }, rest)

/-- Bytes with blanks up to a width. -/
def pad (l : Layout) (bytes : List UInt8) : List UInt8 :=
  let blanks := List.replicate (l.width - bytes.length) 32
  if l.left then bytes ++ blanks else blanks ++ bytes

/-- A number with its sign and leading zeros, given the digits of its amount. -/
def layNumber (l : Layout) (negative : Bool) (digits : Text) : List UInt8 :=
  let sign : Text :=
    if negative then ['-'] else if l.plus then ['+'] else if l.blank then [' '] else []
  let zeros := match l.precision with
    | some p => p - digits.length
    | none => if l.zero && !l.left then l.width - sign.length - digits.length else 0
  pad l (toRaw (sign ++ List.replicate zeros '0' ++ digits))

/-- The number that an argument writes, and whether it is one. An empty argument is zero. -/
def numberOf (t : Text) : Int × Bool :=
  match t with
  | [] => (0, true)
  | ['"'] => (0, true)
  | '"' :: c :: _ => (c.toNat, true)
  | '\x27' :: c :: _ => (c.toNat, true)
  | _ =>
    let t := t.dropWhile (· = ' ')
    let (negative, digits) := match t with
      | '-' :: digits => (true, digits)
      | '+' :: digits => (false, digits)
      | digits => (false, digits)
    let signed := fun n : Nat => if negative then -(n : Int) else n
    match if digits.isEmpty then none else Arithmetic.numeral? digits with
    | some n => (signed n, true)
    | none => (signed ((Text.numeral? (digits.takeWhile Text.isDigit)).getD 0), false)

/-- What a format has made of its arguments. -/
structure Rendering where
  bytes : List UInt8
  arguments : List Text
  /-- The exit status: one for an argument that is no number, two for an unknown conversion. -/
  status : Nat
  /-- Whether it asked to stop. -/
  stops : Bool

/-- With bytes before it, and the status for them. -/
def Rendering.after (r : Rendering) (bytes : List UInt8) (status : Nat) : Rendering :=
  { r with bytes := bytes ++ r.bytes, status := max status r.status }

/-- A digit of a base up to sixteen, in upper case. -/
def upperHex (n : Nat) : Text :=
  (Nat.toDigits 16 n).map Char.toUpper

/-- The bytes of a conversion of an argument, and whether that is fit for it; none for a conversion
that is not known. -/
def convert? (l : Layout) (conversion : UInt8) (argument : Text) : Option (List UInt8 × Bool) :=
  let (n, good) := numberOf argument
  let unsigned := (n % (UInt64.size : Int)).toNat
  match Char.ofNat conversion.toNat with
  | 's' =>
    let bytes := toRaw argument
    some (pad l (match l.precision with | some p => bytes.take p | none => bytes), true)
  | 'c' => some (pad l ((toRaw argument).take 1), true)
  | 'd' => some (layNumber l (n < 0) (Text.ofNat n.natAbs), good)
  | 'i' => some (layNumber l (n < 0) (Text.ofNat n.natAbs), good)
  | 'u' => some (layNumber l false (Text.ofNat unsigned), good)
  | 'o' => some (layNumber l false (Nat.toDigits 8 unsigned), good)
  | 'x' => some (layNumber l false (Nat.toDigits 16 unsigned), good)
  | 'X' => some (layNumber l false (upperHex unsigned), good)
  | _ => none

/-- What one pass over a format makes of arguments; `length` bounds the format. -/
def pass : Nat → List UInt8 → List Text → Rendering
  | 0, _, arguments => ⟨[], arguments, 0, false⟩
  | _, [], arguments => ⟨[], arguments, 0, false⟩
  | length + 1, 37 :: 37 :: rest, arguments => (pass length rest arguments).after [37] 0
  | length + 1, 37 :: rest, arguments =>
    let (l, rest) := layoutOf rest
    match rest with
    | [] => ⟨[], arguments, 2, true⟩
    | 98 :: rest =>
      let (bytes, stops) := unescape (arguments.headD [])
      if stops then ⟨pad l bytes, arguments.tail, 0, true⟩
      else (pass length rest arguments.tail).after (pad l bytes) 0
    | conversion :: rest =>
      match convert? l conversion (arguments.headD []) with
      | some (bytes, good) => (pass length rest arguments.tail).after bytes (if good then 0 else 1)
      | none => ⟨[], arguments, 2, true⟩
  | length + 1, b :: rest, arguments => (pass length rest arguments).after [b] 0

/-- Passes over a format until no arguments are left, or until a pass takes none; `passes` bounds
their number. -/
def passes (format : List UInt8) : Nat → List Text → Rendering
  | 0, arguments => ⟨[], arguments, 0, false⟩
  | count + 1, arguments =>
    let first := pass format.length format arguments
    if first.stops || first.arguments.isEmpty || first.arguments.length = arguments.length then
      first
    else (passes format count first.arguments).after first.bytes first.status

/-- What a format makes of its arguments: the bytes and the exit status. -/
def render (format : Text) (arguments : List Text) : List UInt8 × Nat :=
  let (format, _) := unescapeFrom .format none format
  let r := passes format (arguments.length + 1) arguments
  (r.bytes, r.status)

end Format

end Typesweep.Shell
