import Typesweep.Config.Declaration
import Typesweep.Path.Normal

/-!
# Configurations

A configuration is what a file declares together with what it takes over from the configurations
that it builds on. A list of files or patterns is taken over whole and stays relative to the
directory of the file that declared it; compiler options are taken over key by key.
-/

namespace Typesweep

/-- A list of files or patterns, and the directory they are relative to. -/
structure FileList where
  /-- Directory of the configuration that declared the list. -/
  base : Path
  entries : List Text
  deriving DecidableEq, Repr

/-- A configuration with everything it takes over. -/
structure Config where
  path : Path
  files : Option FileList := none
  includes : Option FileList := none
  excludes : Option FileList := none
  options : List (Text × Json) := []

namespace Config

/-- Whether the checker writes no output: the option `noEmit` is `true`. -/
def noEmit (c : Config) : Bool :=
  match Json.field? "noEmit".toList c.options with
  | some (.bool value) => value
  | _ => false

/-- The configuration after taking over what `base` has: its lists where it has them, and all of its
options. -/
def inherit (c base : Config) : Config :=
  { c with
    files := base.files.or c.files
    includes := base.includes.or c.includes
    excludes := base.excludes.or c.excludes
    options := Json.setFields c.options base.options }

/-- The configuration after what a file in the directory `dir` declares itself. -/
def declare (c : Config) (d : Declaration) (dir : Path) : Config :=
  { c with
    files := (d.files.map (FileList.mk dir)).or c.files
    includes := (d.includes.map (FileList.mk dir)).or c.includes
    excludes := (d.excludes.map (FileList.mk dir)).or c.excludes
    options := Json.setFields c.options (d.options.getD []) }

end Config

/-- The directory of a configuration, the current one if its path has none. -/
def Path.configDir (p : Path) : Path :=
  p.parent?.getD (.ofString ".")

end Typesweep
