import Typesweep.FileTree.Basic
import Typesweep.Json.Fault
import Typesweep.Glob

/-!
# Configuration errors

Why a configuration cannot be used. Each of these ends a run before any checker is started, since
a configuration that cannot be read cannot be given any files.
-/

namespace Typesweep

/-- Why a configuration cannot be used. -/
inductive ConfigError
  | unreadable (path : Path) (cause : AccessError)
  /-- A file is no configuration, from a line on. -/
  | malformed (path : Path) (line : Nat) (cause : Json.Cause)
  /-- An entry of `extends` in the configuration `origin` leads to no file. -/
  | baseNotFound (spec : Text) (origin : Path)
  | circular (path : Path)
  /-- The configurations that this one builds on do not come to an end. -/
  | endless (path : Path)
  /-- An entry of the configuration is no pattern. -/
  | badPattern (entry : Text) (path : Path) (fault : Glob.Fault)
  deriving DecidableEq, Repr

namespace ConfigError

/-- The message of the error itself. Of the place in a malformed file it gives the line, and leaves
out the column that follows it in the message of a JSON reader. -/
def message : ConfigError → String
  | unreadable path cause => "failed to read " ++ toString path ++ ": " ++ cause.message
  | malformed path line cause =>
    "failed to parse " ++ toString path ++ ": " ++ String.ofList cause.message ++
      " at line " ++ toString line
  | baseNotFound spec origin =>
    "cannot find " ++ String.ofList (Text.quoted spec) ++ " extended by " ++ toString origin
  | circular path => "circular extends through " ++ toString path
  | endless path => "endless extends through " ++ toString path
  | badPattern entry path fault =>
    "invalid pattern " ++ String.ofList (Text.quoted entry) ++ " in " ++ toString path ++ ": " ++
      fault.message

/-- The messages of what caused the error, which a full account repeats after it. -/
def causes : ConfigError → List String
  | unreadable _ cause => [cause.message]
  | malformed _ _ cause => [String.ofList cause.message]
  | badPattern _ _ fault => [fault.message]
  | _ => []

end ConfigError

end Typesweep
