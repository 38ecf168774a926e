import Typesweep.Json.Reader

/-!
# Reading values of a known shape

Where a configuration says what it wants to read (a string, a list of strings, an object), a value
of another type is a fault at the place where that value was recognised, even if the text has
other faults later on.
-/

namespace Typesweep.Json

/-- The fault of a value at `t` that is not what was expected. Strings, numbers and literal names
are read first and can be faulty themselves. -/
def mismatch {α : Type} (expected : String) (t : Text) : Except Fault α :=
  match t with
  | 'n' :: rest => literal .null (readIdent ['u', 'l', 'l'] rest)
  | 't' :: rest => literal (.bool true) (readIdent ['r', 'u', 'e'] rest)
  | 'f' :: rest => literal (.bool false) (readIdent ['a', 'l', 's', 'e'] rest)
  | '"' :: rest => scalar .string (readString rest)
  | '-' :: rest => scalar .number (readNumber true rest)
  | '[' :: _ => faultBefore (.mismatch .sequence expected) t
  | '\x7b' :: _ => faultBefore (.mismatch .map expected) t
  | c :: _ =>
    if Text.isDigit c then scalar .number (readNumber false t) else faultAt .expectedValue t
  | [] => faultAt .expectedValue t
where
  /-- The fault after a literal name. -/
  literal (found : Found) (read : Except Fault Text) : Except Fault α :=
    match read with
    | .error f => .error f
    | .ok rest => faultBefore (.mismatch found expected) rest
  /-- The fault after a string or a number. -/
  scalar {β : Type} (found : β → Found) (read : Reading β) : Except Fault α :=
    match read with
    | .error f => .error f
    | .ok (value, rest) => faultBefore (.mismatch (found value) expected) rest

/-- Reads `null` as nothing, and any other value with `read`. -/
def readOptional {α : Type} (read : Text → Reading α) (t : Text) : Reading (Option α) :=
  match skipSpace t with
  | 'n' :: rest => (readIdent ['u', 'l', 'l'] rest).map fun rest => (none, rest)
  | t => (read t).map fun (value, rest) => (some value, rest)

/-- Reads a string. -/
def readText (t : Text) : Reading Text :=
  match skipSpace t with
  | [] => faultAt .endInValue []
  | '"' :: rest => readString rest
  | t => mismatch "a string" t

/-- Reads the strings of a list up to and with its closing bracket. -/
def readTexts : Nat → Bool → Text → Reading (List Text)
  | 0, _, t => faultAt .tooDeep t
  | fuel + 1, first, t =>
    match nextItem first t with
    | .error f => .error f
    | .ok (.done t) => .ok ([], t.drop 1)
    | .ok (.item t) =>
      match readText t with
      | .error f => .error f
      | .ok (item, rest) =>
        (readTexts fuel false rest).map fun (items, rest) => (item :: items, rest)

/-- Reads a list of strings. -/
def readTextList (t : Text) : Reading (List Text) :=
  match skipSpace t with
  | [] => faultAt .endInValue []
  | '[' :: rest => readTexts (fuelFor rest) true rest
  | t => mismatch "a sequence" t

/-- Reads the fields of an object, whose values may be nested `depth` deep. -/
def readObject (depth : Nat) (t : Text) : Reading (List (Text × Json)) :=
  match skipSpace t with
  | [] => faultAt .endInValue []
  | '\x7b' :: rest => readFields (fuelFor rest) depth true [] rest
  | t => mismatch "a map" t

/-- Where the reading of an object ends that is given up before `t`: after its closing brace if
that comes next. -/
def giveUpObject (t : Text) : Text :=
  match skipSpace t with
  | '\x7d' :: rest => rest
  | t => t

/-- Where the reading of a list ends that is given up before `t`: after its closing bracket or a
comma if that comes next. -/
def giveUpList (t : Text) : Text :=
  match skipSpace t with
  | ']' :: rest => rest
  | ',' :: rest => skipSpace rest
  | t => t

end Typesweep.Json
