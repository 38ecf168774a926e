import Typesweep.Text

/-!
# JSON values

A JSON value as configurations and reports use it. A number keeps the form it was read in: an
integer that fits 64 bits is kept exactly, every other number as the bits of a binary64 float.
The fields of an object are a list without repeated keys; `Json.setField` keeps it so.
-/

namespace Typesweep

/-- A number of a JSON text. -/
inductive Json.Number
  /-- A number without sign, fraction or exponent, below 2^64. -/
  | natural (n : Nat)
  /-- The negative of a positive number of at most 2^63. -/
  | negative (n : Nat)
  /-- Any other number, as the bits of the float it was read as. -/
  | float (bits : UInt64)
  deriving DecidableEq, Repr

/-- A JSON value. -/
inductive Json
  | null
  | bool (value : Bool)
  | number (value : Json.Number)
  | string (value : Text)
  | array (items : List Json)
  | object (fields : List (Text × Json))

namespace Json

/-- The fields with `key` set to `value`: in its place if the key is there, else at the end. -/
def setField (key : Text) (value : Json) : List (Text × Json) → List (Text × Json)
  | [] => [(key, value)]
  | (k, v) :: rest => if k = key then (key, value) :: rest else (k, v) :: setField key value rest

/-- The fields with those of `later` set one after the other. -/
def setFields (fields later : List (Text × Json)) : List (Text × Json) :=
  later.foldl (fun fs f => setField f.1 f.2 fs) fields

/-- The value of a field. -/
def field? (key : Text) : List (Text × Json) → Option Json
  | [] => none
  | (k, v) :: rest => if k = key then some v else field? key rest

/-- The value of a field of an object with a name from the program text. -/
def get? (j : Json) (key : String) : Option Json :=
  match j with
  | .object fields => field? key.toList fields
  | _ => none

end Json

end Typesweep
