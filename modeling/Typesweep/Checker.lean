import Typesweep.FileTree.Walk
import Typesweep.Path.WellKnown
import Typesweep.Project

/-!
# Checkers

The checker is installed per package, in the directory of installed packages nearest above. A
project that has its own checker is checked by that one; any other by the global one, found from
the working directory.

* `FileTree.locate?`: an executable in the nearest installed packages.
* `Checker.binaryFor`, `Checker.arguments`: how a project is checked.
-/

namespace Typesweep

/-- The file at a path below the installed packages of `start`, or else of the nearest directory
above that has it. -/
def FileTree.locate? (t : FileTree) (start below : Path) : Option Path :=
  (t.upward start).findSome? fun (dir, names) =>
    let candidate := (dir.child packagesName).join below
    if names.contains (Text.ofBytes packagesName) && t.isFile candidate then some candidate
    else none

/-- The global checker of a run. -/
structure Checker where
  binary : Path
  /-- The working directory, which every checker runs in. -/
  cwd : Path
  deriving DecidableEq, Repr

namespace Checker

/-- The scratch directory for output: in the installed packages that hold the global checker. -/
def outputDir (c : Checker) : Path :=
  ((c.binary.parent?.bind Path.parent?).getD (c.cwd.child packagesName)).child scratchName

/-- The executable for a project. -/
def binaryFor (c : Checker) (t : FileTree) (project : Project) : Path :=
  (t.locate? project.dir checkerPath).getD c.binary

/-- The arguments for a project. Declarations are only asked for where output is written at all. -/
def arguments (c : Checker) (project : Project) : List Text :=
  ["--project".toList, project.path.text, "--outDir".toList, c.outputDir.text] ++
    if project.noEmit then [] else ["--declaration".toList, "--emitDeclarationOnly".toList]

end Checker

end Typesweep
