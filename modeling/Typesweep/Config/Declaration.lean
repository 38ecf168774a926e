import Typesweep.Json.Shape

/-!
# Declarations

What one configuration file says by itself: the configurations that it builds on, its lists of
files and patterns, and its compiler options. Every part may be missing or `null`, and fields with
other names are passed over. The file may also be a list of the five parts in this order.
-/

namespace Typesweep

/-- What one configuration file declares. -/
structure Declaration where
  /-- The configurations it builds on, as written, in order. -/
  bases : List Text := []
  files : Option (List Text) := none
  includes : Option (List Text) := none
  excludes : Option (List Text) := none
  options : Option (List (Text × Json)) := none

namespace Declaration

/-- The parts of a declaration. -/
inductive Part
  | bases
  | files
  | includes
  | excludes
  | options
  deriving DecidableEq, Repr

/-- The field that holds a part. -/
def Part.fieldName : Part → Text
  | bases => "extends".toList
  | files => "files".toList
  | includes => "include".toList
  | excludes => "exclude".toList
  | options => "compilerOptions".toList

/-- All parts, in the order in which a list gives them. -/
def Part.all : List Part := [bases, files, includes, excludes, options]

/-- The part that a field holds. -/
def Part.ofField? (name : Text) : Option Part :=
  Part.all.find? fun p => p.fieldName = name

/-- What messages call a whole declaration. -/
def recordName : String := "struct RawTsConfig"

/-- What messages call the forms of `extends`. -/
def basesName : String := "Extends"

/-- The strings of a list of values, if all are strings. -/
def texts? : List Json → Option (List Text)
  | [] => some []
  | .string t :: rest => (texts? rest).map (t :: ·)
  | _ :: _ => none

/-- The configurations that a value of `extends` names: one string or a list of strings. -/
def basesOf? : Json → Option (List Text)
  | .string t => some [t]
  | .array items => texts? items
  | _ => none

open Json

/-- Reads the value of `extends`. It is read as a value of any type first, so that its other faults
come before the fault of having the wrong type, which is noticed at the end of the whole
declaration, where `giveUp` goes. -/
def readBases (giveUp : Text → Text) (t : Text) : Reading (List Text) :=
  match readValue (fuelFor t) (maxDepth - 1) t with
  | .error f => .error f
  | .ok (value, rest) =>
    match basesOf? value with
    | some bases => .ok (bases, rest)
    | none => faultBefore (.noVariant basesName) (giveUp rest)

/-- Reads the value of a part. -/
def readPart (giveUp : Text → Text) (d : Declaration) (part : Part) (t : Text) :
    Reading Declaration :=
  match part with
  | .bases =>
    (readOptional (readBases giveUp) t).map fun (v, rest) => ({ d with bases := v.getD [] }, rest)
  | .files => (readOptional readTextList t).map fun (v, rest) => ({ d with files := v }, rest)
  | .includes =>
    (readOptional readTextList t).map fun (v, rest) => ({ d with includes := v }, rest)
  | .excludes =>
    (readOptional readTextList t).map fun (v, rest) => ({ d with excludes := v }, rest)
  | .options =>
    (readOptional (readObject (maxDepth - 2)) t).map fun (v, rest) =>
      ({ d with options := v }, rest)

/-- Reads the fields of a declaration up to and with its closing brace. `seen` are the parts read
so far, each of which may be there once. -/
def readFields : Nat → Bool → List Part → Declaration → Text → Reading Declaration
  | 0, _, _, _, t => faultAt .tooDeep t
  | fuel + 1, first, seen, d, t =>
    match nextKey first t with
    | .error f => .error f
    | .ok (.done t) => .ok (d, t.drop 1)
    | .ok (.item t) =>
      match readString (t.drop 1) with
      | .error f => .error f
      | .ok (key, rest) =>
        match Part.ofField? key with
        | some part =>
          if seen.contains part then faultBefore (.duplicateField key) (giveUpObject rest)
          else
            match readColon rest with
            | .error f => .error f
            | .ok rest =>
              match readPart giveUpObject d part rest with
              | .error f => .error f
              | .ok (d, rest) => readFields fuel false (part :: seen) d rest
        | none =>
          match readColon rest with
          | .error f => .error f
          | .ok rest =>
            match skipValue (fuelFor rest) rest with
            | .error f => .error f
            | .ok rest => readFields fuel false seen d rest

/-- Reads the items of a declaration that is a list. -/
def readItems : Bool → Nat → List Part → Declaration → Text → Reading Declaration
  | _, _, [], d, t => (endList t).map fun rest => (d, rest)
  | first, index, part :: parts, d, t =>
    match nextItem first t with
    | .error f => .error f
    | .ok (.done t) =>
      faultBefore (.wrongLength index (recordName ++ " with 5 elements")) (giveUpList t)
    | .ok (.item t) =>
      match readPart giveUpList d part t with
      | .error f => .error f
      | .ok (d, rest) => readItems false (index + 1) parts d rest

/-- Reads the text of a configuration from which comments were taken away. -/
def read (t : Text) : Except Fault Declaration :=
  let result : Reading Declaration :=
    match skipSpace t with
    | [] => faultAt .endInValue []
    | '[' :: rest => readItems true 0 Part.all {} rest
    | '\x7b' :: rest => readFields (fuelFor rest) true [] {} rest
    | t => mismatch recordName t
  match result with
  | .error f => .error f
  | .ok (d, rest) => (endText rest).map fun _ => d

end Declaration

end Typesweep
