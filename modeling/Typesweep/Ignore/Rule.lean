import Typesweep.Text.Classes
import Typesweep.Path.Basic

/-!
# Ignore rules

A line of a rule file is blank, a comment, or a rule: a pattern, negated if a `!` stands before
it. All rules of a run end up in one list that is read from the working directory, so the lines of
files in other directories are reworded to mean there what they meant where they stood.

* `IgnoreRule.parse?`, `IgnoreRule.line`: reading a line and writing a rule.
* `lineFromAbove?`: a line of a file above the working directory. An anchored pattern only
  means something in its own directory and is dropped.
* `lineFromBelow`: a line of a file below the working directory. `/x` becomes `/dir/x`, and `x`
  becomes `dir/**/x`.
-/

namespace Typesweep

/-- A rule of a rule file. -/
structure IgnoreRule where
  /-- The pattern, without the `!` of a negated rule. -/
  pattern : Text
  /-- Whether the rule takes back what earlier rules ignore. -/
  negated : Bool
  /-- Directory of the file that holds the rule. -/
  scope : Path
  deriving DecidableEq, Repr

/-- Whether a line carries no rule. -/
def isBlankOrComment (line : Text) : Bool :=
  line.head? = some '#' || line.all Text.isBlank

/-- The `!` of a line, if it starts with one, and the pattern after it. -/
def splitNegation (line : Text) : Text × Text :=
  match line with
  | '!' :: pattern => (['!'], pattern)
  | _ => ([], line)

namespace IgnoreRule

/-- The rule of a line, unless it carries none. -/
def parse? (line : Text) (scope : Path) : Option IgnoreRule :=
  let line := Text.dropCarriageReturns line
  if isBlankOrComment line then none
  else
    let (mark, pattern) := splitNegation line
    some { pattern := pattern, negated := mark ≠ [], scope := scope }

/-- The rule as a line. -/
def line (r : IgnoreRule) : Text :=
  if r.negated then '!' :: r.pattern else r.pattern

end IgnoreRule

/-- The rules of lines that all stand in one directory, in order. -/
def IgnoreRule.ofLines (lines : List Text) (scope : Path) : List IgnoreRule :=
  lines.filterMap fun line => IgnoreRule.parse? line scope

/-- A line of a rule file above the working directory, or none if its pattern is anchored. -/
def lineFromAbove? (line : Text) : Option Text :=
  let line := Text.dropCarriageReturns line
  if isBlankOrComment line then some line
  else if (splitNegation line).2.head? = some '/' then none
  else some line

/-- The text without the `./` at its start, however often it stands there. -/
def dropHere : Text → Text
  | '.' :: '/' :: rest => dropHere rest
  | t => t

/-- A line of a rule file below the working directory, in the directory `dir`. -/
def lineFromBelow (line dir : Text) : Text :=
  let line := Text.dropCarriageReturns line
  if isBlankOrComment line then line
  else
    let (mark, pattern) := splitNegation line
    let dir := Text.trim (· = '/') dir
    match pattern with
    | '/' :: anchored => mark ++ '/' :: dir ++ '/' :: anchored
    | _ => mark ++ dir ++ "/**/".toList ++ dropHere pattern

end Typesweep
