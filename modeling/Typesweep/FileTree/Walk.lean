import Typesweep.FileTree.Basic

/-!
# Walks

A walk down lists the files below a path. Links are followed; a link to a directory that the walk
is already inside is passed over, and so is everything that cannot be read. The caller decides for
each directory strictly below the start, by its path and its name as it is shown, whether it is
entered. A walk up
goes from a directory to the top, and ends where the caller stops it.

* `filesBelow`: the files that a walk down finds.
* `upward`, `upwardUntil`: the directories that a walk up visits.
-/

namespace Typesweep.FileTree

/-- The files in and below the directory at `here`, reached by the path `path`. `inside` are the
places of the directories that the walk is in, and `depth` bounds how deep it goes. -/
def filesInside (t : FileTree) (enter : Path → Text → Bool) :
    Nat → List Place → Place → Path → List Path
  | 0, _, _, _ => []
  | depth + 1, inside, here, path =>
    (t.names here).flatMap fun name =>
      let child := path.child name
      match t.find child with
      | .error _ => []
      | .ok place =>
        match t.entry? place with
        | some (.file ..) => [child]
        | some .dir =>
          let isLink := place != here ++ [name]
          if isLink && inside.contains place then []
          else if enter child (Text.ofBytes name) then
            filesInside t enter depth (place :: inside) place child
          else []
        | _ => []

/-- Length of the longest place of the tree. -/
def height (t : FileTree) : Nat :=
  (t.entries.map fun e => e.1.length).foldl max 0

/-- A walk never goes deeper than this: between two links it goes down at most the height of the
tree, and no two links that it is inside lead to the same directory. -/
def walkDepth (t : FileTree) : Nat :=
  (t.entries.length + 2) * (t.height + 1)

/-- The files at or below a path, each by the path that the walk took to it. -/
def filesBelow (t : FileTree) (enter : Path → Text → Bool) (start : Path) : List Path :=
  match t.find start with
  | .error _ => []
  | .ok place =>
    match t.entry? place with
    | some (.file ..) => [start]
    | some .dir => filesInside t enter t.walkDepth [place] place start
    | _ => []

/-- The directories from `start` up to the top, nearest first, each with its names. -/
def upward (t : FileTree) (start : Path) : List (Path × List Text) :=
  start.ancestors.map fun dir => (dir, t.listing dir)

/-- The visits up to and with the first one that stops. -/
def visitsUntil (stops : Path → List Text → Bool) :
    List (Path × List Text) → List (Path × List Text)
  | [] => []
  | (dir, names) :: rest =>
    if stops dir names then [(dir, names)] else (dir, names) :: visitsUntil stops rest

/-- The directories from `start` upwards, each with its names, up to and with the first at which the
visitor stops. -/
def upwardUntil (t : FileTree) (stops : Path → List Text → Bool) (start : Path) :
    List (Path × List Text) :=
  visitsUntil stops (t.upward start)

end Typesweep.FileTree
