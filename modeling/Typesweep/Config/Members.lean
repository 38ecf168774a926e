import Typesweep.Config.Load
import Typesweep.Project

/-!
# Members

The files that a configuration covers: those it names one by one, or those its patterns take in
and do not leave out.

Every entry of a pattern list is cut into the directory that its components without wildcards name
(its base) and the pattern that follows. It matches what the whole entry matches and everything
below that, so that `src` means the same as `src/**/*`. Only the bases of the taken-in entries are
walked, and directories that the left-out entries match are not entered.

* `PatternSet.compile`, `PatternSet.accepts`: the patterns of a list.
* `FileTree.matchedFiles`: the walk.
* `FileTree.resolveProject`: the project of a configuration.
-/

namespace Typesweep

/-- The entries taken in when a configuration declares none. -/
def defaultIncludes : List Text := ["**/*".toList]

/-- The entries left out when a configuration declares none. -/
def defaultExcludes : List Text :=
  ["**/node_modules".toList, "**/bower_components".toList, "**/jspm_packages".toList]

/-- Whether a component of an entry holds a wildcard. -/
def isWild (text : Text) : Bool :=
  text.any fun c => c = '*' || c = '?' || c = '['

/-- An entry of a pattern list: the directory that its components up to the first wildcard name, and
the text of the components from there on. -/
def splitEntry (base : Path) (entry : Text) : Path × Text :=
  let components := Path.components (.ofText entry)
  let literal := components.takeWhile fun c => !isWild c.text
  let wild := components.dropWhile fun c => !isWild c.text
  (base.absolutize (.ofComponents literal), Text.joinWith ['/'] (wild.map Component.text))

/-- The two patterns of an entry: what it names itself, and everything below that. -/
def entryPatterns (literal : Path) (wild : Text) : Text × Text :=
  let isSlash := fun c : Char => c = '/'
  let escaped := Glob.escape literal.text
  let anchored := if wild = [] then escaped else Text.trimEnd isSlash escaped ++ '/' :: wild
  (anchored, Text.trimEnd isSlash anchored ++ "/**/*".toList)

/-- The patterns of a list, and the directories at or below which everything that they match
lies. -/
structure PatternSet where
  /-- Two patterns for each entry. -/
  patterns : List Glob.Pattern
  /-- The bases of the entries, in order and each once. -/
  bases : List Path
  deriving DecidableEq, Repr

namespace PatternSet

/-- The patterns of the entries of a list, for the configuration at `path`. -/
def compilePatterns (path base : Path) : List Text → Except ConfigError (List Glob.Pattern)
  | [] => .ok []
  | entry :: entries =>
    let (literal, wild) := splitEntry base entry
    let (anchored, below) := entryPatterns literal wild
    match Glob.parse anchored with
    | .error fault => .error (.badPattern entry path fault)
    | .ok first =>
      match Glob.parse below with
      | .error fault => .error (.badPattern entry path fault)
      | .ok second =>
        match compilePatterns path base entries with
        | .error e => .error e
        | .ok rest => .ok (first :: second :: rest)

/-- The pattern set of a list in the configuration at `path`. -/
def compile (list : FileList) (path : Path) : Except ConfigError PatternSet :=
  (compilePatterns path list.base list.entries).map fun patterns =>
    { patterns := patterns
      bases := Path.sortedDistinct (list.entries.map fun entry =>
        (splitEntry list.base entry).1) }

/-- Whether some pattern matches the path. -/
def accepts (s : PatternSet) (spelled : Bool) (p : Path) : Bool :=
  s.patterns.any fun pattern => pattern.accepts spelled p.text

/-- Whether the path is taken in: names with a leading dot must be spelled out. -/
def takesIn (s : PatternSet) (p : Path) : Bool :=
  s.accepts true p

/-- Whether the path is left out. -/
def leavesOut (s : PatternSet) (p : Path) : Bool :=
  s.accepts false p

end PatternSet

/-- Whether a walk for members enters a directory. -/
def entersForMembers (excludes : PatternSet) (dir : Path) (name : Text) : Bool :=
  !isNeverWalked name && !excludes.leavesOut dir

/-- Whether a file that a walk found is a member. -/
def isMember (includes excludes : PatternSet) (file : Path) : Bool :=
  !file.isConfig && includes.takesIn file && !excludes.leavesOut file

namespace FileTree

/-- The files at or below the bases that the patterns take in and do not leave out. -/
def matchedFiles (t : FileTree) (includes excludes : PatternSet) : List Path :=
  includes.bases.flatMap fun base =>
    ((t.filesBelow (entersForMembers excludes) base).map Path.normalize).filter
      (isMember includes excludes)

/-- The files that a list names one by one, as far as they are there and are no configurations. -/
def namedFiles (t : FileTree) (list : FileList) : List Path :=
  (list.entries.map fun entry => list.base.absolutize (.ofText entry)).filter fun file =>
    t.isFile file && !file.isConfig

/-- The files that a configuration covers. -/
def memberFiles (t : FileTree) (c : Config) : Except ConfigError (List Path) :=
  let dir := c.path.configDir
  match c.files, c.includes with
  | some files, _ => .ok (t.namedFiles files)
  | none, some ⟨_, []⟩ => .ok []
  | none, includes =>
    match PatternSet.compile (includes.getD ⟨dir, defaultIncludes⟩) c.path with
    | .error e => .error e
    | .ok includes =>
      match PatternSet.compile (c.excludes.getD ⟨dir, defaultExcludes⟩) c.path with
      | .error e => .error e
      | .ok excludes => .ok (t.matchedFiles includes excludes)

/-- The project of the configuration at a path; none if it covers no files. -/
def resolveProject (t : FileTree) (path : Path) : Except ConfigError (Option Project) :=
  match Config.load t path with
  | .error e => .error e
  | .ok c =>
    match t.memberFiles c with
    | .error e => .error e
    | .ok [] => .ok none
    | .ok (file :: files) => .ok (some (.ofFiles path (file :: files) c.noEmit))

end FileTree

end Typesweep
