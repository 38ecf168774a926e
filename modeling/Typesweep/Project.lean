import Typesweep.Order
import Typesweep.Path.Basic

/-!
# Projects

A project is one configuration together with the files that it covers. The files are kept in the
order of paths, each once.
-/

namespace Typesweep

/-- The paths in ascending order, each once and in its first spelling. -/
def Path.sortedDistinct (paths : List Path) : List Path :=
  Order.sortDistinct Path.compare paths

/-- A configuration and the files that it covers. -/
structure Project where
  path : Path
  dir : Path
  files : List Path
  /-- Whether the checker writes no output for it. -/
  noEmit : Bool
  deriving DecidableEq, Repr

namespace Project

/-- The project of a configuration that covers the given files. -/
def ofFiles (path : Path) (files : List Path) (noEmit : Bool) : Project :=
  { path := path
    dir := path.parent?.getD ⟨[]⟩
    files := Path.sortedDistinct files
    noEmit := noEmit }

/-- Whether the project covers no files. -/
def isEmpty (p : Project) : Bool :=
  p.files.isEmpty

/-- The project with those of its files that `keep` accepts. -/
def retain (p : Project) (keep : Path → Bool) : Project :=
  { p with files := p.files.filter keep }

end Project

end Typesweep
