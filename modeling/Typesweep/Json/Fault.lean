import Typesweep.Json.Basic
import Typesweep.Text.Quoted
import Typesweep.Decimal.Shortest

/-!
# Faults of JSON texts

Why a text cannot be read, and where: a fault keeps the part of the text that was not yet read
when it was noticed, from which its line follows (`Fault.line`). Every cause has a kind
(`Cause.category`) and a message (`Cause.message`).
-/

namespace Typesweep.Json

/-- What was found where something else was expected. -/
inductive Found
  | null
  | bool (value : Bool)
  | number (value : Number)
  | string (value : Text)
  | sequence
  | map
  deriving DecidableEq, Repr

/-- The cause of a fault. -/
inductive Cause
  | endInValue
  | endInObject
  | endInList
  | endInString
  | expectedColon
  | expectedListEnd
  | expectedObjectEnd
  | expectedIdent
  | expectedValue
  | invalidEscape
  | invalidNumber
  | numberOutOfRange
  | loneSurrogate
  | unfinishedPair
  | controlCharacter
  | keyNotString
  | trailingComma
  | trailingCharacters
  | tooDeep
  /-- A value of another type than `expected`. -/
  | mismatch (found : Found) (expected : String)
  /-- A field of a record given twice. -/
  | duplicateField (name : Text)
  /-- A record given as a list that is too short. -/
  | wrongLength (length : Nat) (expected : String)
  /-- A value that has none of the forms of a choice. -/
  | noVariant (choice : String)
  deriving DecidableEq, Repr

/-- The kinds of causes. -/
inductive Category
  | syntaxFault
  /-- The text is a JSON text, but not of the expected shape. -/
  | data
  /-- The text ends too early. -/
  | endOfText
  deriving DecidableEq, Repr

/-- Numbers in messages are positional while they have at most 16 digits before the point and at
most four zeros after it. -/
def messageLayout : Decimal.Layout := ⟨-4, 16⟩

/-- What was found, as messages call it. -/
def Found.describe : Found → Text
  | .null => "null".toList
  | .bool true => "boolean `true`".toList
  | .bool false => "boolean `false`".toList
  | .number (.natural n) => "integer `".toList ++ Text.ofNat n ++ ['\x60']
  | .number (.negative n) => "integer `-".toList ++ Text.ofNat n ++ ['\x60']
  | .number (.float bits) =>
    "floating point `".toList ++ Decimal.write messageLayout bits ++ ['\x60']
  | .string t => "string ".toList ++ Text.quoted t
  | .sequence => "sequence".toList
  | .map => "map".toList

namespace Cause

/-- The kind of a cause. -/
def category : Cause → Category
  | endInValue | endInObject | endInList | endInString => .endOfText
  | mismatch .. | duplicateField .. | wrongLength .. | noVariant .. => .data
  | _ => .syntaxFault

/-- The message of a cause. -/
def message : Cause → Text
  | endInValue => "EOF while parsing a value".toList
  | endInObject => "EOF while parsing an object".toList
  | endInList => "EOF while parsing a list".toList
  | endInString => "EOF while parsing a string".toList
  | expectedColon => "expected `:`".toList
  | expectedListEnd => "expected `,` or `]`".toList
  | expectedObjectEnd => "expected `,` or `\x7d`".toList
  | expectedIdent => "expected ident".toList
  | expectedValue => "expected value".toList
  | invalidEscape => "invalid escape".toList
  | invalidNumber => "invalid number".toList
  | numberOutOfRange => "number out of range".toList
  | loneSurrogate => "lone leading surrogate in hex escape".toList
  | unfinishedPair => "unexpected end of hex escape".toList
  | controlCharacter =>
    "control character (\\u0000-\\u001F) found while parsing a string".toList
  | keyNotString => "key must be a string".toList
  | trailingComma => "trailing comma".toList
  | trailingCharacters => "trailing characters".toList
  | tooDeep => "recursion limit exceeded".toList
  | mismatch found expected =>
    "invalid type: ".toList ++ found.describe ++ ", expected ".toList ++ expected.toList
  | duplicateField name => "duplicate field `".toList ++ name ++ ['\x60']
  | wrongLength length expected =>
    "invalid length ".toList ++ Text.ofNat length ++ ", expected ".toList ++ expected.toList
  | noVariant choice =>
    "data did not match any variant of untagged enum ".toList ++ choice.toList

end Cause

/-- A fault: its cause, and the text still unread where it was noticed. -/
structure Fault where
  cause : Cause
  /-- The text after the place of the fault. -/
  rest : Text
  deriving DecidableEq, Repr

/-- What a reader gives: a value and the text after it, or a fault. -/
abbrev Reading (α : Type) := Except Fault (α × Text)

/-- A fault just before `rest`. -/
def faultBefore {α : Type} (cause : Cause) (rest : Text) : Except Fault α :=
  .error ⟨cause, rest⟩

/-- A fault at the first character of `rest`. -/
def faultAt {α : Type} (cause : Cause) (rest : Text) : Except Fault α :=
  .error ⟨cause, rest.drop 1⟩

/-- The line of a fault in the text that was read, counted from one. -/
def Fault.line (whole : Text) (f : Fault) : Nat :=
  1 + (whole.count '\n' - f.rest.count '\n')

end Typesweep.Json
