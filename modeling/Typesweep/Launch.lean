import Typesweep.Checker
import Typesweep.Shell.Run
import Typesweep.Task

/-!
# Launching checkers

A checker is an executable of the tree: a script whose first line names its interpreter. It runs in
the working directory with nothing to read, and leaves its exit code, what it printed, and perhaps
a changed tree.

* `FileTree.launch`: runs an executable.
* `Checker.run`, `Checker.runAll`: runs the checker of a project, or those of several in turn.
-/

namespace Typesweep

/-- Why an executable cannot be started. -/
inductive LaunchError
  /-- It, its interpreter or the working directory is not there or may not be used. -/
  | access (cause : AccessError)
  /-- It does not name an interpreter. -/
  | format
  /-- Its path or an argument holds a character that ends the text of an argument. -/
  | nulCharacter
  deriving DecidableEq, Repr

/-- The text of the error. -/
def LaunchError.message : LaunchError → String
  | .access cause => cause.message
  | .format => "Exec format error (os error 8)"
  | .nulCharacter => "nul byte found in provided data"

namespace Launch

/-- The interpreter that the first line of a script names, and the argument it gives to it. -/
def interpreter? (script : Text) : Option (Text × Option Text) :=
  let isSpace := fun c : Char => c = ' ' || c = '\t'
  match Text.after? ['#', '!'] script with
  | none => none
  | some rest =>
    let line := Text.trim isSpace (rest.takeWhile (· ≠ '\n'))
    let (program, argument) := line.span fun c => !isSpace c
    let argument := argument.dropWhile isSpace
    if program.isEmpty then none
    else some (program, if argument.isEmpty then none else some argument)

/-- The programs that run scripts of commands. -/
def shells : List Text :=
  ["sh", "dash", "bash"].map String.toList

/-- The other programs of the system that may interpret a file. -/
def programs : List Text :=
  ["true", "false", "cat", "echo"].map String.toList

/-- What a program of the system makes of a file and arguments; none if there is no such program. -/
def interpret? (program : Text) (option : Option Text) (script : Text) (start : Shell.State) :
    Option Shell.Ended :=
  if shells.contains program then
    some (Shell.Script.run script { start with strict := option.any (·.contains 'e') })
  else if programs.contains program then
    (Shell.utility? program).map fun utility =>
      let s := utility (option.toList ++ start.script :: start.arguments) start
      ⟨some s.status, s.collected.reverse, s.tree⟩
  else if program = "env".toList then
    match option with
    | some name =>
      if shells.contains name then some (Shell.Script.run script start)
      else some ⟨some 127, [], start.tree⟩
    | none => none
  else none

/-- A text as a shell holds it. -/
def shellText (t : Text) : Text :=
  Shell.ofRaw (Text.toUtf8 t)

/-- The bytes of an executable. -/
def executable (t : FileTree) (here : Place) (binary : Path) : Except LaunchError (List UInt8) :=
  if !binary.raw.contains RawText.slash then .error (.access .notFound)
  else
    match t.follow FileTree.maxLinks (if binary.isAbsolute then [] else here) binary.segments with
    | .error e => .error (.access e)
    | .ok place =>
      match t.entry? place with
      | some (.file content true) => .ok content
      | some _ => .error (.access .permissionDenied)
      | none => .error (.access .notFound)

end Launch

/-- Runs an executable in a directory with the variables `environment`: what it leaves, and the tree
after it. -/
def FileTree.launch (t : FileTree) (cwd binary : Path) (arguments : List Text)
    (environment : List (Text × Text)) : Except LaunchError (RunOutput × FileTree) := do
  if (cwd.raw :: binary.raw :: arguments.map Text.toUtf8).any fun a => a.contains 0 then
    throw .nulCharacter
  let here ← (t.find cwd).mapError .access
  if t.entry? here ≠ some .dir then throw (.access .notADirectory)
  let content ← Launch.executable t here binary
  let script := Shell.ofRaw content
  let start : Shell.State := {
    tree := t
    here
    script := Shell.ofRaw binary.raw
    arguments := arguments.map Launch.shellText
    bindings := ("PWD".toList, Shell.ofRaw (FileTree.pathTo here).raw) ::
      environment.map fun (name, value) => (Launch.shellText name, Launch.shellText value) }
  match Launch.interpreter? script with
  | none => throw .format
  | some (program, option) =>
    let ended := (Shell.State.systemName? program).bind fun name =>
      Launch.interpret? name option script start
    match ended with
    | none => throw (.access .notFound)
    | some ended =>
      return (⟨ended.status.map Int.ofNat, Text.ofBytes ended.output⟩, ended.tree)

namespace Checker

/-- Runs the checker of a project: what it does, and the tree after it. -/
def run (c : Checker) (t : FileTree) (environment : List (Text × Text)) (project : Project) :
    CheckerRun × FileTree :=
  let binary := c.binaryFor t project
  match t.launch c.cwd binary (c.arguments project) environment with
  | .ok (output, t) => (.ended output, t)
  | .error e => (.unlaunched binary e.message.toList, t)

/-- Runs the checkers of projects, each on the tree that the one before left. -/
def runAll (c : Checker) (environment : List (Text × Text)) :
    FileTree → List Project → List (Project × CheckerRun) × FileTree
  | t, [] => ([], t)
  | t, project :: rest =>
    let (run, t) := c.run t environment project
    let (runs, t) := runAll c environment t rest
    ((project, run) :: runs, t)

end Checker

end Typesweep
