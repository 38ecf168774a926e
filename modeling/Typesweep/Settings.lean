import Typesweep.FileTree.Basic
import Typesweep.Path.WellKnown
import Typesweep.Toml

/-!
# Settings

A file in the working directory may give values that can also be given on the command line:

    roots = ["packages"]
    ignore = ["fixtures"]
    jobs = 4

A missing file gives the defaults. A file that cannot be read, or that holds anything else, is an
error.
-/

namespace Typesweep

/-- The settings of a working directory. -/
structure Settings where
  /-- Directories to search if the command line names none. -/
  roots : List Path := []
  /-- Patterns to ignore, before those of the command line. -/
  ignore : List Text := []
  jobs : Option Nat := none
  deriving DecidableEq, Repr

/-- Why settings cannot be used. -/
inductive SettingsError
  | unreadable (path : Path) (cause : AccessError)
  | malformed (path : Path)
  deriving DecidableEq, Repr

namespace SettingsError

/-- The message of the error. -/
def message : SettingsError → String
  | unreadable path _ => "failed to read " ++ toString path
  | malformed path => "failed to parse " ++ toString path

/-- The full account of the error. What is wrong in a malformed file is not told. -/
def account : SettingsError → String
  | unreadable path cause => "failed to read " ++ toString path ++ ": " ++ cause.message
  | malformed path => "failed to parse " ++ toString path

end SettingsError

namespace Settings

/-- The strings of a list of values, if all are strings. -/
def texts? : List Toml.Value → Option (List Text)
  | [] => some []
  | .string t :: rest => (texts? rest).map (t :: ·)
  | _ :: _ => none

/-- The settings with those of a field; none if there is no such field, or its value is of another
type. -/
def addField? (s : Settings) (field : Text × Toml.Value) : Option Settings :=
  match String.ofList field.1, field.2 with
  | "roots", .array items => (texts? items).map fun ts => { s with roots := ts.map Path.ofText }
  | "ignore", .array items => (texts? items).map fun ts => { s with ignore := ts }
  | "jobs", .integer n =>
    if 0 ≤ n ∧ n < UInt64.size then some { s with jobs := some n.toNat } else none
  | _, _ => none

/-- The settings that the text of a file gives. -/
def ofText? (t : Text) : Option Settings := do
  let fields ← Toml.read t
  fields.foldlM addField? {}

/-- The settings file of a working directory. -/
def path (cwd : Path) : Path :=
  cwd.child settingsName

/-- The settings of a working directory. -/
def load (t : FileTree) (cwd : Path) : Except SettingsError Settings :=
  match t.readText (path cwd) with
  | .error .notFound => .ok {}
  | .error cause => .error (.unreadable (path cwd) cause)
  | .ok content =>
    match ofText? content with
    | some settings => .ok settings
    | none => .error (.malformed (path cwd))

end Settings

end Typesweep
