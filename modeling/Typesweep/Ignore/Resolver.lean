import Typesweep.FileTree.Walk
import Typesweep.Ignore.Engine
import Typesweep.Order
import Typesweep.Path.Normal
import Typesweep.Path.WellKnown

/-!
# The ignore rules of a run

The rules are gathered into one list that is read from the working directory, later ones winning:
first the fixed rule for installed packages, then the rule files of the directories above the
working directory from the top down to its own, then those nested below the search roots, parents
before children, and last the patterns of the caller.

A nested rule file is only read if the rules gathered before it do not ignore it. Every time the
rules are used to decide something, a matcher is made of their patterns, which may fail
(`IgnoreEngine`) and ends the gathering.

* `RuleSet`: rules that are being gathered.
* `IgnoreResolver.build`: gathering.
* `IgnoreResolver.isIgnored`, `IgnoreResolver.isDirIgnored`: the questions.
-/

namespace Typesweep

/-- Why the ignore rules cannot be gathered. -/
inductive IgnoreError
  | unreadable (path : Path) (cause : AccessError)
  /-- No matcher can be made of the rules gathered so far. -/
  | unbuildable (reason : Text)
  deriving DecidableEq, Repr

namespace IgnoreError

/-- The message of the error. -/
def message : IgnoreError → String
  | unreadable path cause => "failed to read " ++ toString path ++ ": " ++ cause.message
  | unbuildable reason => "failed to build ignore matcher: " ++ String.ofList reason

/-- The messages of what caused the error. -/
def causes : IgnoreError → List String
  | unreadable _ cause => [cause.message]
  | unbuildable reason => [String.ofList reason]

end IgnoreError

/-- A rule together with the pattern that it is matched by. -/
structure ActiveRule where
  rule : IgnoreRule
  /-- Its pattern, unless nothing is left of its line. -/
  pattern? : Option IgnorePattern

/-- The rules gathered so far, in order. -/
abbrev RuleSet := List ActiveRule

namespace RuleSet

/-- The patterns of the rules. -/
def patterns (rules : RuleSet) : List IgnorePattern :=
  rules.filterMap ActiveRule.pattern?

/-- The rules with that of a line added, if it carries a valid one. -/
def addLine (rules : RuleSet) (line : Text) (scope : Path) : RuleSet :=
  match IgnoreRule.parse? line scope with
  | none => rules
  | some rule =>
    match IgnorePattern.ofLine rule.line with
    | .blank => rules ++ [⟨rule, none⟩]
    | .invalid => rules
    | .rule pattern => rules ++ [⟨rule, some pattern⟩]

/-- The rules with those of several lines added. -/
def addLines (rules : RuleSet) (lines : List Text) (scope : Path) : RuleSet :=
  lines.foldl (fun rules line => rules.addLine line scope) rules

/-- The rules, if a matcher can be made of their patterns. -/
def built [IgnoreEngine] (rules : RuleSet) : Except IgnoreError RuleSet :=
  match IgnoreEngine.refusal? rules.patterns with
  | some reason => .error (.unbuildable reason)
  | none => .ok rules

/-- Whether the rules, read from the directory `cwd`, ignore a path. Outside of `cwd`, and at `cwd`
itself, nothing is ignored. -/
def ignores (rules : RuleSet) (cwd path : Path) (isDir : Bool) : Bool :=
  match if path.isAbsolute then path.relativeTo? cwd else some path with
  | none => false
  | some relative =>
    if relative.raw = [] || relative.components.contains .up then false
    else IgnorePattern.ignores rules.patterns relative isDir

end RuleSet

/-- The ignore rules of a run. -/
structure IgnoreResolver where
  /-- The directory that the rules are read from. -/
  cwd : Path
  rules : RuleSet

namespace IgnoreResolver

/-- Whether a path, absolute or relative to the working directory, is ignored. -/
def isIgnored (r : IgnoreResolver) (path : Path) : Bool :=
  r.rules.ignores r.cwd path false

/-- Whether a directory is ignored. -/
def isDirIgnored (r : IgnoreResolver) (path : Path) : Bool :=
  r.rules.ignores r.cwd path true

/-- The lines of a rule file. -/
def readLines (t : FileTree) (path : Path) : Except IgnoreError (List Text) :=
  match t.readText path with
  | .ok content => .ok (Text.lines content)
  | .error cause => .error (.unreadable path cause)

/-- The rule files of the working directory and the directories above it, from the top down. -/
def upwardFiles (t : FileTree) (cwd : Path) : List Path :=
  ((t.upward cwd).filterMap fun (dir, names) =>
    if names.contains (Text.ofBytes ignoreFileName) then some (dir.child ignoreFileName)
    else none).reverse

/-- Adds the rules of a file in the working directory or above it. -/
def addUpwardFile (t : FileTree) (cwd : Path) (rules : RuleSet) (path : Path) :
    Except IgnoreError RuleSet :=
  match readLines t path with
  | .error e => .error e
  | .ok lines =>
    let scope := path.parent?.getD cwd
    let lines := if scope.Same cwd then lines else lines.filterMap lineFromAbove?
    .ok (rules.addLines lines scope)

/-- Whether the search for nested rule files enters a directory. -/
def entersForRules (rules : RuleSet) (cwd dir : Path) (name : Text) : Bool :=
  !isNeverWalked name && !rules.ignores cwd dir true

/-- Parents before children, at the same depth in the order of paths. -/
def compareDepth (p q : Path) : Ordering :=
  (compare p.components.length q.components.length).then (p.compare q)

/-- The rule files at or below the search roots, parents before children. -/
def nestedFiles (t : FileTree) (cwd : Path) (rules : RuleSet) (roots : List Path) : List Path :=
  let found := roots.flatMap fun root =>
    (t.filesBelow (entersForRules rules cwd) (cwd.absolutize root)).filter fun file =>
      file.fileName? = some ignoreFileName
  Order.sortDistinct compareDepth (found.map Path.normalize)

/-- Adds the rules of a nested file, unless it is that of the working directory itself, lies outside
of it, or is ignored by the rules so far. -/
def addNestedFile [IgnoreEngine] (t : FileTree) (cwd : Path) (rules : RuleSet) (path : Path) :
    Except IgnoreError RuleSet :=
  if path.Same (cwd.child ignoreFileName) then .ok rules
  else
    match path.parent?.bind fun dir => dir.relativeTo? cwd with
    | none => .ok rules
    | some dir =>
      match rules.built with
      | .error e => .error e
      | .ok current =>
        if current.ignores cwd path false then .ok rules
        else
          match readLines t path with
          | .error e => .error e
          | .ok lines =>
            .ok (rules.addLines (lines.map fun line => lineFromBelow line dir.text)
              (path.parent?.getD cwd))

/-- Adds the rules of one file after the other. -/
def addFiles (add : RuleSet → Path → Except IgnoreError RuleSet) :
    RuleSet → List Path → Except IgnoreError RuleSet
  | rules, [] => .ok rules
  | rules, path :: paths =>
    match add rules path with
    | .error e => .error e
    | .ok rules => addFiles add rules paths

/-- Gathers the rules for a working directory, search roots and patterns of the caller. -/
def build [IgnoreEngine] (t : FileTree) (cwd : Path) (roots : List Path) (patterns : List Text) :
    Except IgnoreError IgnoreResolver :=
  let fixed := RuleSet.addLine [] (Text.ofBytes packagesName) cwd
  match addFiles (addUpwardFile t cwd) fixed (upwardFiles t cwd) with
  | .error e => .error e
  | .ok upward =>
    match upward.built with
    | .error e => .error e
    | .ok pruning =>
      match addFiles (addNestedFile t cwd) upward (nestedFiles t cwd pruning roots) with
      | .error e => .error e
      | .ok nested =>
        match (nested.addLines patterns cwd).built with
        | .error e => .error e
        | .ok rules => .ok ⟨cwd, rules⟩

end IgnoreResolver

end Typesweep
