import Typesweep.Ignore.Matcher

/-!
# Putting patterns together

Before rules are asked about paths, their patterns are put together into one matcher. A pattern that
can be read can still be one that no matcher is made of, and then nothing can be asked. Which lists
of patterns are refused is not said here: it is what the engine that makes matchers does.

* `IgnoreEngine`: an engine, as what it refuses.
* `IgnorePattern.nesting`, `nestingEngine`: how deep the parts of a pattern are nested, and the
  engine that refuses the patterns for which that is too deep.
-/

namespace Typesweep

/-- What makes matchers of patterns. -/
class IgnoreEngine where
  /-- Why no matcher is made of patterns, if none is. -/
  refusal? : List IgnorePattern → Option Text

namespace IgnoreGlob

/-- How deep a row of parts is nested, given their number and how deep each is: a single part does
not nest any deeper by being in a row. -/
def nestingOfRow (parts : Nat) (deepest : Nat) : Nat :=
  if parts ≤ 1 then deepest else deepest + 1

/-- Of how many parts an element is made. -/
def Token.parts : Token → Nat
  | .literal c => c.utf8Size
  | .trailingComponents => 2
  | .alternatives branches => if branchesAreVoid branches then 0 else 1
  | _ => 1

/-- Of how many parts a row of elements is made. -/
def partsOf : List Token → Nat
  | [] => 0
  | token :: tokens => token.parts + partsOf tokens

mutual

/-- How deep the parts of an element are nested: a choice and a repetition nest what they are made
of, and so does a class of several ranges. -/
def Token.nesting : Token → Nat
  | .literal _ => 0
  | .any => 1
  | .row => 2
  | .leadingComponents => 4
  | .trailingComponents => 1
  | .innerComponents => 4
  | .oneOf _ ranges => if ranges.length ≤ 1 then 1 else 2
  | .alternatives branches =>
    let count := (branches.filter fun branch => !tokensAreVoid branch).length
    if count = 0 then 0 else nestingOfRow count (deepestBranch branches) + 1

/-- How deep the deepest of some elements is nested. -/
def deepestToken : List Token → Nat
  | [] => 0
  | token :: tokens => max token.nesting (deepestToken tokens)

/-- How deep the deepest of some rows of elements is nested. -/
def deepestBranch : List (List Token) → Nat
  | [] => 0
  | branch :: branches =>
    max (nestingOfRow (partsOf branch) (deepestToken branch)) (deepestBranch branches)

end

end IgnoreGlob

/-- How deep the parts of a pattern are nested. -/
def IgnorePattern.nesting (p : IgnorePattern) : Nat :=
  IgnoreGlob.deepestToken p.tokens + 1

/-- A pattern that is nested deeper than this is refused. -/
def maxNesting : Nat := 250

/-- The engine that refuses nothing but patterns that are nested too deep. -/
instance nestingEngine : IgnoreEngine where
  refusal? patterns :=
    if patterns.all fun p => p.nesting ≤ maxNesting then none
    else some "error parsing pattern".toList

end Typesweep
