import Typesweep.Diagnostic.Basic
import Typesweep.Path.Normal
import Typesweep.Text.Classes

/-!
# Reading checker output

The checker prints a problem on one line:

    src/app.ts(12,5): error TS2322: Type 'string' is not assignable to type 'number'.

All other lines are noise. A line is cut at the first opening parenthesis, after at least one
character, from which on it has this form; the row and column may be written in the decimal digits
of any script there, but a problem only comes of it if they are ASCII numbers of 32 bits.

* `Diagnostic.splitLine?`: cutting a line.
* `Diagnostic.ofLine?`, `Diagnostic.ofOutput`: the problems of a line and of a whole output.
-/

namespace Typesweep.Diagnostic

/-- The parts of a line that reports a problem, as they are written. -/
structure Parts where
  file : Text
  line : Text
  column : Text
  code : Text
  message : Text
  deriving DecidableEq, Repr

/-- The longest start of a text in a class of characters, unless it is empty, and the rest. -/
def takeSome? (keep : Char → Bool) (t : Text) : Option (Text × Text) :=
  match t.takeWhile keep with
  | [] => none
  | taken => some (taken, t.dropWhile keep)

/-- Whether a character can be in a code. -/
def isCodeChar (c : Char) : Bool :=
  c != ':' && !Text.isBlank c

/-- Cuts the text after the file, from its opening parenthesis on. -/
def splitRest? (file t : Text) : Option Parts := do
  let t ← Text.after? ['('] t
  let (line, t) ← takeSome? Text.isDecimalDigit t
  let t ← Text.after? [','] t
  let (column, t) ← takeSome? Text.isDecimalDigit t
  let t ← Text.after? "): error ".toList t
  let (code, t) ← takeSome? isCodeChar t
  let message ← Text.after? ": ".toList t
  return ⟨file, line, column, code, message⟩

/-- Cuts a line whose file starts with `file`, the last character first. -/
def splitFrom? (file : Text) : Text → Option Parts
  | [] => none
  | c :: rest =>
    match splitRest? file.reverse (c :: rest) with
    | some parts => some parts
    | none => splitFrom? (c :: file) rest

/-- Cuts a line at the first place where that is possible. -/
def splitLine? : Text → Option Parts
  | [] => none
  | c :: rest => splitFrom? [c] rest

/-- The number of 32 bits that a text writes. -/
def word? (t : Text) : Option UInt32 :=
  match Text.numeral? t with
  | some n => if n < UInt32.size then some (UInt32.ofNat n) else none
  | none => none

/-- The problem that a line reports. A relative file is one below `cwd`. -/
def ofLine? (cwd : Path) (line : Text) : Option Diagnostic := do
  let parts ← splitLine? (Text.dropCarriageReturns line)
  let line ← word? parts.line
  let column ← word? parts.column
  return ⟨cwd.absolutize (.ofText parts.file), line, column, parts.code, parts.message⟩

/-- The problems that an output reports, in order. -/
def ofOutput (cwd : Path) (output : Text) : List Diagnostic :=
  (Text.lines output).filterMap (ofLine? cwd)

end Typesweep.Diagnostic
