import Typesweep.Ignore.Resolver

/-!
# Discovery

The configurations below the search roots that the ignore rules leave. Each root is searched by
itself, so overlapping roots give a configuration more than once.
-/

namespace Typesweep

/-- Why a root cannot be searched. -/
inductive DiscoveryError
  | rootNotFound (root : Path)
  | notADirectory (root : Path)
  deriving DecidableEq, Repr

/-- The message of the error. -/
def DiscoveryError.message : DiscoveryError → String
  | .rootNotFound root => "root path does not exist: " ++ toString root
  | .notADirectory root => "not a directory: " ++ toString root

/-- Whether the search enters a directory. -/
def entersForConfigs (ignore : IgnoreResolver) (dir : Path) (name : Text) : Bool :=
  !isNeverWalked name && !ignore.isDirIgnored dir

namespace FileTree

/-- The configurations below a root, in the order of paths. -/
def configsBelow (t : FileTree) (ignore : IgnoreResolver) (root : Path) : List Path :=
  let found := (t.filesBelow (entersForConfigs ignore) root).filter Path.isConfig
  Order.sort Path.compare ((found.map Path.normalize).filter fun p => !ignore.isIgnored p)

/-- The configurations below each root in turn. -/
def discover (t : FileTree) (cwd : Path) (ignore : IgnoreResolver) :
    List Path → Except DiscoveryError (List Path)
  | [] => .ok []
  | root :: roots =>
    let root := cwd.absolutize root
    if !t.contains root then .error (.rootNotFound root)
    else if !t.isDir root then .error (.notADirectory root)
    else (discover t cwd ignore roots).map fun rest => t.configsBelow ignore root ++ rest

end FileTree

end Typesweep
