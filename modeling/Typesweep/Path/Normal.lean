import Typesweep.Path.Basic

/-!
# Normal paths

Two spellings of one place are made comparable without looking at the tree: `Path.normalize`
drops every `.` and lets `..` take back the component before it, `Path.absolutize` resolves a
path against a directory first, and `Path.display` is the way back, as far as the path is UTF-8: the
text shown for a path to a user who stands in some directory.
-/

namespace Typesweep.Path

/-- One step of normalizing. `kept` are the components kept so far, the last one first. A `..`
takes back the last one, unless there is none or it is the root: then it is kept itself. -/
def foldComponent (kept : List Component) (c : Component) : List Component :=
  match c with
  | .here => kept
  | .up =>
    match kept with
    | [] => [.up]
    | .root :: rest => .up :: .root :: rest
    | _ :: rest => rest
  | .root => [.root]
  | .name b => .name b :: kept

/-- The path without `.` and with each `..` folded into the component before it. -/
def normalize (p : Path) : Path :=
  ofComponents (p.components.foldl foldComponent []).reverse

/-- The normalized path of `p`, read from the directory `base` if it is relative. -/
def absolutize (base p : Path) : Path :=
  if p.isAbsolute then p.normalize else (base.join p).normalize

/-- The path as shown to a user in the directory `cwd`: from `./` if it lies inside. -/
def display (p cwd : Path) : Text :=
  match p.relativeTo? cwd with
  | some below => '.' :: '/' :: below.text
  | none => p.text

end Typesweep.Path
