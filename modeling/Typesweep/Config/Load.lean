import Typesweep.Config.Basic
import Typesweep.Config.Error
import Typesweep.FileTree.Walk
import Typesweep.Jsonc
import Typesweep.Path.WellKnown

/-!
# Loading configurations

A configuration is loaded with everything that it builds on: first its bases in the order written,
each with its own bases, then what it declares itself, the later winning. The chain of
configurations that are being loaded is kept, and a configuration that is met again on it is an
error; one that is met twice by different ways is loaded twice.
-/

namespace Typesweep

namespace FileTree

/-- The path itself if it leads to a file, else with `.json` added to it if that does. -/
def withExtension? (t : FileTree) (p : Path) : Option Path :=
  let extended : Path := ⟨p.raw ++ Text.toUtf8 ".json".toList⟩
  if t.isFile p then some p else if t.isFile extended then some extended else none

/-- The configuration of a package: at the path of the entry itself, or in the directory there. -/
def packageConfig? (t : FileTree) (package : Path) : Option Path :=
  let nested := package.child configName
  (t.withExtension? package).or (if t.isFile nested then some nested else none)

/-- The file that an entry of `extends` in a configuration in `dir` names. An entry that starts with
a dot or is absolute is a path; any other is looked up in the installed packages of `dir` and then
of the directories above it. -/
def findBase? (t : FileTree) (dir : Path) (spec : Text) : Option Path :=
  let path : Path := .ofText spec
  if spec.head? = some '.' ∨ path.isAbsolute then t.withExtension? (dir.absolutize path)
  else
    (t.upward dir).findSome? fun (above, names) =>
      if names.contains (Text.ofBytes packagesName) then
        t.packageConfig? ((above.child packagesName).join path)
      else none

/-- What the file at a path declares. -/
def readDeclaration (t : FileTree) (path : Path) : Except ConfigError Declaration :=
  match t.readText path with
  | .error cause => .error (.unreadable path cause)
  | .ok content =>
    let stripped := Jsonc.strip content
    match Declaration.read stripped with
    | .error fault => .error (.malformed path (fault.line stripped) fault.cause)
    | .ok d => .ok d

mutual

/-- Loads the configuration at `path` while those of `chain` are being loaded. Nothing comes out if
the configurations that it builds on do not come to an end. -/
def loadChain (t : FileTree) (chain : List Path) (path : Path) :
    Option (Except ConfigError Config) :=
  if chain.any fun seen => decide (seen.Same path) then some (.error (.circular path))
  else
    match t.readDeclaration path with
    | .error e => some (.error e)
    | .ok d => do
      match ← t |>.inheritChain (path :: chain) path { path := path } d.bases with
      | .error e => some (.error e)
      | .ok c => some (.ok (c.declare d path.configDir))
partial_fixpoint

/-- Takes over one after the other the bases that the entries in the configuration at `path` name,
while the configurations of `chain` are being loaded. -/
def inheritChain (t : FileTree) (chain : List Path) (path : Path) (c : Config)
    (specs : List Text) : Option (Except ConfigError Config) :=
  match specs with
  | [] => some (.ok c)
  | spec :: specs =>
    match t.findBase? path.configDir spec with
    | none => some (.error (.baseNotFound spec path))
    | some base => do
      match ← t |>.loadChain chain base with
      | .error e => some (.error e)
      | .ok b => t |>.inheritChain chain path (c.inherit b) specs
partial_fixpoint

end

end FileTree

/-- Loads the configuration at a path with everything it builds on. -/
def Config.load (t : FileTree) (path : Path) : Except ConfigError Config :=
  (t.loadChain [] path).getD (.error (.endless path))

end Typesweep
