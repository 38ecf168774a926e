import Typesweep.Ignore.Glob
import Typesweep.Ignore.Rule

/-!
# Matching ignore rules

A rule is matched against a path relative to the directory it is read from. A pattern without a
slash (one at its end aside) matches at every depth, any other only from that directory on; a
slash at the end makes it match directories only; a final `/**` matches what is inside a
directory, but not the directory.

Of the rules that match a path, the last one counts. If none matches it, the directory above it
is asked, and so on up.

* `IgnorePattern.ofLine`: reading the line of a rule.
* `IgnorePattern.verdict?`: what a list of rules says about a path itself.
* `IgnorePattern.ignores`: what it says about a path or else the directories above.
-/

namespace Typesweep

/-- A rule in the form in which it is matched. -/
structure IgnorePattern where
  tokens : List IgnoreGlob.Token
  /-- Whether it takes back what earlier rules ignore. -/
  negated : Bool
  /-- Whether it matches directories only. -/
  dirsOnly : Bool

namespace IgnorePattern

/-- What the line of a rule means. -/
inductive Meaning
  | blank
  /-- Its pattern breaks a rule of patterns. -/
  | invalid
  | rule (pattern : IgnorePattern)

/-- The line without the blanks at its end, unless the last one follows a backslash. -/
def trimLine (line : Text) : Text :=
  if Text.endsWith ['\\', ' '] line then line else Text.trimEnd Text.isBlank line

/-- The start of a rule: whether it is negated, whether it is anchored by a slash, and what follows.
A backslash before a `!` or `#` only protects it. -/
def splitStart (line : Text) : Bool × Bool × Text :=
  match line with
  | '\\' :: '!' :: rest => (false, false, '!' :: rest)
  | '\\' :: '#' :: rest => (false, false, '#' :: rest)
  | _ =>
    let (mark, rest) := splitNegation line
    match rest with
    | '/' :: anchored => (mark ≠ [], true, anchored)
    | _ => (mark ≠ [], false, rest)

/-- The end of a rule: whether it ends in a slash, and what stands before that, without a backslash
before the slash. -/
def splitEnd (pattern : Text) : Bool × Text :=
  match pattern.reverse with
  | '/' :: '\\' :: before => (true, before.reverse)
  | '/' :: before => (true, before.reverse)
  | _ => (false, pattern)

/-- The pattern with its start and end spelled out: `**/` before one that matches at every depth,
and `/*` after one that matches what is inside a directory. -/
def spellOut (anchored : Bool) (pattern : Text) : Text :=
  let started :=
    if anchored || pattern.contains '/' || pattern = "**".toList then pattern
    else "**/".toList ++ pattern
  if Text.endsWith "/**".toList started then started ++ "/*".toList else started

/-- What a line means. -/
def ofLine (line : Text) : Meaning :=
  if line.head? = some '#' then .blank
  else
    let line := trimLine line
    if line = [] then .blank
    else
      let (negated, anchored, rest) := splitStart line
      let (dirsOnly, pattern) := splitEnd rest
      match IgnoreGlob.parse (spellOut anchored pattern) with
      | none => .invalid
      | some tokens => .rule ⟨tokens, negated, dirsOnly⟩

/-- Whether the rule matches a path itself. -/
def accepts (p : IgnorePattern) (bytes : RawText) (isDir : Bool) : Bool :=
  (!p.dirsOnly || isDir) && IgnoreGlob.accepts p.tokens bytes

/-- What the rules say about a path itself: whether it is ignored, if any rule matches it. -/
def verdict? (rules : List IgnorePattern) (path : Path) (isDir : Bool) : Option Bool :=
  (rules.reverse.find? fun rule => rule.accepts path.raw isDir).map fun rule => !rule.negated

/-- What the rules say about a path or else the nearest directory above it that a rule matches. -/
def verdictUpward? (rules : List IgnorePattern) (isDir : Bool) : List Path → Option Bool
  | [] => none
  | path :: above => (verdict? rules path isDir).or (verdictUpward? rules true above)

/-- Whether the rules ignore a path relative to their directory. -/
def ignores (rules : List IgnorePattern) (path : Path) (isDir : Bool) : Bool :=
  let path : Path :=
    match path.raw with
    | RawText.dot :: RawText.slash :: rest => ⟨rest⟩
    | _ => path
  (verdictUpward? rules isDir path.ancestors).getD false

end IgnorePattern

end Typesweep
