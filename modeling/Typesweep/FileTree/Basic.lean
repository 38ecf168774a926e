import Typesweep.Path.Basic
import Typesweep.Text.Utf8

/-!
# File trees

A file tree maps places to entries. A place is the list of names that leads to an entry from the
top without passing through a link; the top itself is always a directory. An entry that no chain
of directories leads to is never found.

* `FileTree.find`: the place that a path leads to, links followed (`FileTree.follow`).
* `FileTree.names`: the names in a directory.
* `FileTree.isFile`, `FileTree.isDir`, `FileTree.readText`: what the readers ask of a tree.
* `FileTree.write`, `FileTree.remove`, `FileTree.makeDir`: what changes it.
-/

namespace Typesweep

open RawText (slash dot)

/-- The names on the way to an entry, from the top. -/
abbrev Place := List RawText

/-- What a name in a directory stands for. -/
inductive Entry
  /-- A directory. Its contents are the entries at the places just below. -/
  | dir
  /-- A file with its bytes, and whether it may be run. -/
  | file (content : List UInt8) (executable : Bool)
  /-- A symbolic link. A relative target starts at the directory that holds the link. -/
  | link (target : Path)
  deriving DecidableEq

/-- A file tree, as its entries other than the top. -/
structure FileTree where
  /-- Each place that holds something, with what it holds. -/
  entries : List (Place × Entry)

/-- Why a path leads to no file whose text can be read. -/
inductive AccessError
  | notFound
  | notADirectory
  | tooManyLinks
  | isADirectory
  | permissionDenied
  | notUtf8
  deriving DecidableEq, Repr

namespace AccessError

/-- The text of the error, with the number that the system gives to it. -/
def message : AccessError → String
  | notFound => "No such file or directory (os error 2)"
  | notADirectory => "Not a directory (os error 20)"
  | tooManyLinks => "Too many levels of symbolic links (os error 40)"
  | isADirectory => "Is a directory (os error 21)"
  | permissionDenied => "Permission denied (os error 13)"
  | notUtf8 => "stream did not contain valid UTF-8"

end AccessError

namespace FileTree

/-- The tree with nothing below its top. -/
def empty : FileTree := ⟨[]⟩

/-- What is at a place. -/
def entry? (t : FileTree) (p : Place) : Option Entry :=
  if p = [] then some .dir else t.entries.lookup p

/-- The name of `q` in the directory at `p`, if `q` is just below `p`. -/
def nameIn? : Place → Place → Option RawText
  | [], [n] => some n
  | a :: p, b :: q => if a = b then nameIn? p q else none
  | _, _ => none

/-- The names in the directory at `p`, each once. -/
def names (t : FileTree) (p : Place) : List RawText :=
  (t.entries.filterMap fun e => nameIn? p e.1).eraseDups

/-! ## Following a path -/

/-- Goes from the place `at_` along the segments of a path. Every segment, also an empty one, needs
a directory to start from; an empty segment and `.` stay there, `..` goes to the directory above.
At a link, `onLink` goes on from the directory that holds it, along the given segments. -/
def followWith (t : FileTree) (onLink : Place → List RawText → Except AccessError Place) :
    Place → List RawText → Except AccessError Place
  | here, [] => .ok here
  | here, segment :: rest =>
    match t.entry? here with
    | none => .error .notFound
    | some (.file ..) => .error .notADirectory
    | some (.link _) => .error .notADirectory
    | some .dir =>
      if segment = [] ∨ segment = [dot] then followWith t onLink here rest
      else if segment = [dot, dot] then followWith t onLink here.dropLast rest
      else
        match t.entry? (here ++ [segment]) with
        | none => .error .notFound
        | some (.link target) =>
          if target.raw = [] then .error .notFound
          else onLink (if target.isAbsolute then [] else here) (target.segments ++ rest)
        | some _ => followWith t onLink (here ++ [segment]) rest

/-- Goes along the segments of a path, through at most `links` links. -/
def follow (t : FileTree) : Nat → Place → List RawText → Except AccessError Place
  | 0 => followWith t fun _ _ => .error .tooManyLinks
  | links + 1 => followWith t (follow t links)

/-- A path that leads through more links than this leads nowhere. -/
def maxLinks : Nat := 40

/-- The place that an absolute path leads to. A relative path has no tree to start in. -/
def find (t : FileTree) (p : Path) : Except AccessError Place :=
  if p.isAbsolute then t.follow maxLinks [] p.segments else .error .notFound

/-- What an absolute path leads to. -/
def lookup (t : FileTree) (p : Path) : Except AccessError Entry :=
  match t.find p with
  | .error e => .error e
  | .ok place =>
    match t.entry? place with
    | some entry => .ok entry
    | none => .error .notFound

/-- The path that leads to a place without links. -/
def pathTo (place : Place) : Path :=
  ⟨slash :: Text.joinWith [slash] place⟩

/-! ## Questions -/

/-- Whether the path leads to a file. -/
def isFile (t : FileTree) (p : Path) : Bool :=
  match t.lookup p with
  | .ok (.file ..) => true
  | _ => false

/-- Whether the path leads to a directory. -/
def isDir (t : FileTree) (p : Path) : Bool :=
  match t.lookup p with
  | .ok .dir => true
  | _ => false

/-- Whether the path leads to anything. -/
def contains (t : FileTree) (p : Path) : Bool :=
  (t.lookup p).isOk

/-- The bytes of the file that the path leads to. -/
def readBytes (t : FileTree) (p : Path) : Except AccessError (List UInt8) :=
  match t.lookup p with
  | .ok (.file content _) => .ok content
  | .ok _ => .error .isADirectory
  | .error e => .error e

/-- The text of the file that the path leads to. -/
def readText (t : FileTree) (p : Path) : Except AccessError Text :=
  match t.readBytes p with
  | .error e => .error e
  | .ok content =>
    match Text.ofUtf8? content with
    | some text => .ok text
    | none => .error .notUtf8

/-- The names in the directory that the path leads to, as they are shown; none if it leads to no
directory. -/
def listing (t : FileTree) (p : Path) : List Text :=
  match t.find p with
  | .ok place => if t.entry? place = some .dir then (t.names place).map Text.ofBytes else []
  | .error _ => []

/-! ## Changes -/

/-- The tree with `entry` at a place, instead of what was there. -/
def put (t : FileTree) (p : Place) (entry : Entry) : FileTree :=
  ⟨t.entries.filter (fun e => e.1 ≠ p) ++ [(p, entry)]⟩

/-- The tree without what is at a place or below it. -/
def drop (t : FileTree) (p : Place) : FileTree :=
  ⟨t.entries.filter fun e => !p.isPrefixOf e.1⟩

/-- The tree with directories along the segments, and the place they lead to from `here`.
Directories that are there already are kept, also behind a link. -/
def makeDirs (t : FileTree) (here : Place) : List RawText → FileTree × Place
  | [] => (t, here)
  | segment :: rest =>
    match t.follow maxLinks here [segment] with
    | .ok place => makeDirs t place rest
    | .error _ => makeDirs (t.put (here ++ [segment]) .dir) (here ++ [segment]) rest

/-- The tree with a directory at the path, and directories above it as needed. -/
def makeDir (t : FileTree) (p : Path) : FileTree :=
  (t.makeDirs [] p.segments).1

/-- The tree with `entry` at the path, and directories above it as needed. A file goes to where a
link at the path leads. -/
def write (t : FileTree) (p : Path) (entry : Entry) : FileTree :=
  match p.segments.reverse with
  | [] => t
  | name :: above =>
    let (t, dir) := t.makeDirs [] above.reverse
    match entry, t.follow maxLinks dir [name] with
    | .file .., .ok place => t.put place entry
    | _, _ => t.put (dir ++ [name]) entry

/-- The tree without what is at the path; a link is taken away itself, not what it leads to. -/
def remove (t : FileTree) (p : Path) : FileTree :=
  match p.segments.reverse with
  | [] => t
  | name :: above =>
    match t.follow maxLinks [] above.reverse with
    | .ok dir => t.drop (dir ++ [name])
    | .error _ => t

end FileTree

end Typesweep
