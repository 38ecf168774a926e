import Typesweep.CommandLine.Run
import Typesweep.FileTree.Snapshot
import Typesweep.Json.Reader

/-!
# The program

Reads what its command line runs in as one line of JSON from standard input: the working directory
`cwd`, the `tree` below the top as a snapshot, and perhaps the number of `processors` and whether to
print in `color`. Then it runs the command line, prints what that prints, and exits with its code.
-/

namespace Typesweep

/-- The number of a field, or the number that stands for a missing one. -/
def Json.natFieldOr (j : Json) (name : String) (default : Nat) : Nat :=
  match j.get? name with
  | some (.number (.natural n)) => n
  | _ => default

/-- What a line of input says that the command line runs in. -/
def Surroundings.ofLine? (line : Text) : Option Surroundings :=
  match Json.read line with
  | .error _ => none
  | .ok j =>
    match j.get? "cwd", (j.get? "tree").bind (FileTree.ofSnapshot? (.ofString "/")) with
    | some (.string cwd), some tree =>
      some {
        tree
        cwd := .ofText cwd
        processors := j.natFieldOr "processors" 1
        color := match j.get? "color" with
          | some (.bool color) => color
          | _ => false }
    | _, _ => none

end Typesweep

open Typesweep in
/-- Runs the command line in the surroundings that standard input describes. -/
def main (arguments : List String) : IO UInt32 := do
  let stdin ← IO.getStdin
  let line ← stdin.getLine
  match Surroundings.ofLine? line.toList with
  | none =>
    IO.eprintln "the surroundings cannot be read"
    return 2
  | some surroundings =>
    let conclusion := surroundings.run (arguments.map String.toList)
    IO.print (String.ofList conclusion.stdout)
    IO.eprint (String.ofList conclusion.stderr)
    return conclusion.exitCode.toUInt32
