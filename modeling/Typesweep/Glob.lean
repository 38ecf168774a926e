import Typesweep.Text

/-!
# File patterns

The patterns of `include` and `exclude` entries, matched against whole paths.

* `?` is any character and `*` any row of characters, a slash excepted.
* `**` must be a whole component; it is any row of components, also none.
* `[abc]`, `[a-z]` and `[!a]` are one character of a class, a slash excepted. The first character
  of a class never closes it.
* Every other character is itself.

Where hidden names must be spelled out, no wildcard matches a dot at the start of a component.

* `Glob.parse`: reading a pattern, or saying which rule it breaks and where.
* `Glob.escape`: the pattern that matches just one text.
* `Glob.Pattern.accepts`: matching.
-/

namespace Typesweep.Glob

/-- One element of a pattern. -/
inductive Token
  | char (c : Char)
  | anyChar
  /-- A row of characters within a component. -/
  | anySequence
  /-- A row of whole components, each with its slash. -/
  | anyComponents
  /-- One character of the ranges, ends included, or one outside of them. -/
  | oneOf (negated : Bool) (ranges : List (Char × Char))
  deriving DecidableEq, Repr

/-- A pattern, as its elements. -/
structure Pattern where
  tokens : List Token
  deriving DecidableEq, Repr

/-! ## Reading -/

/-- The rule that a text breaks if it is no pattern. -/
inductive Rule
  /-- Three stars or more in a row. -/
  | starRow
  /-- Two stars that are no whole component. -/
  | partialComponents
  | openClass
  deriving DecidableEq, Repr

/-- Why and where a text is no pattern. -/
structure Fault where
  /-- Number of characters before the place. -/
  position : Nat
  rule : Rule
  deriving DecidableEq, Repr

/-- The message of a rule. -/
def Rule.message : Rule → String
  | starRow => "wildcards are either regular `*` or recursive `**`"
  | partialComponents => "recursive wildcards must form a single path component"
  | openClass => "invalid range pattern"

/-- The message of a fault with its place. -/
def Fault.message (f : Fault) : String :=
  "Pattern syntax error near position " ++ toString f.position ++ ": " ++ f.rule.message

/-- The ranges that the characters between the brackets of a class write. A minus between two
characters makes them a range. -/
def rangesOf : Text → List (Char × Char)
  | [] => []
  | a :: '-' :: b :: rest => (a, b) :: rangesOf rest
  | a :: rest => (a, a) :: rangesOf rest

/-- Where the reader of a pattern is. -/
inductive Mode
  /-- Outside of classes, after this character. -/
  | outside (last : Option Char)
  /-- Just after the bracket at a position. -/
  | opened (start : Nat)
  /-- Just after the bracket at a position and a `!`. -/
  | negated (start : Nat)
  /-- In a class, after its first characters, the last one first. -/
  | inClass (start : Nat) (negated : Bool) (chars : Text)

/-- The tokens, last one first, with `**` added. After the second token, `**` is not repeated. -/
def addComponents (done : List Token) : List Token :=
  match done with
  | .anyComponents :: _ :: _ => done
  | _ => .anyComponents :: done

/-- Reads a pattern from a position on; `done` are the tokens so far, the last one first. -/
def parseFrom : Mode → Nat → List Token → Text → Except Fault (List Token)
  | .outside _, _, done, [] => .ok done.reverse
  | .opened start, _, _, [] => .error ⟨start, .openClass⟩
  | .negated start, _, _, [] => .error ⟨start, .openClass⟩
  | .inClass start _ _, _, _, [] => .error ⟨start, .openClass⟩
  | .opened start, n, done, c :: rest =>
    if c = '!' then parseFrom (.negated start) (n + 1) done rest
    else parseFrom (.inClass start false [c]) (n + 1) done rest
  | .negated start, n, done, c :: rest =>
    parseFrom (.inClass start true [c]) (n + 1) done rest
  | .inClass start negated chars, n, done, c :: rest =>
    if c = ']' then
      parseFrom (.outside ']') (n + 1) (.oneOf negated (rangesOf chars.reverse) :: done) rest
    else parseFrom (.inClass start negated (c :: chars)) (n + 1) done rest
  | .outside _, n, _, '*' :: '*' :: '*' :: _ => .error ⟨n + 2, .starRow⟩
  | .outside last, n, done, '*' :: '*' :: rest =>
    if last = none ∨ last = some '/' then
      match rest with
      | [] => .ok (addComponents done).reverse
      | '/' :: rest => parseFrom (.outside '/') (n + 3) (addComponents done) rest
      | _ => .error ⟨n + 2, .partialComponents⟩
    else .error ⟨n - 1, .partialComponents⟩
  | .outside _, n, done, c :: rest =>
    if c = '*' then parseFrom (.outside c) (n + 1) (.anySequence :: done) rest
    else if c = '?' then parseFrom (.outside c) (n + 1) (.anyChar :: done) rest
    else if c = '[' then parseFrom (.opened n) (n + 1) done rest
    else parseFrom (.outside c) (n + 1) (.char c :: done) rest

/-- Reads a pattern. -/
def parse (t : Text) : Except Fault Pattern :=
  (parseFrom (.outside none) 0 [] t).map Pattern.mk

/-- One character as a pattern that matches only itself. -/
def escapeChar (c : Char) : Text :=
  if c = '?' ∨ c = '*' ∨ c = '[' ∨ c = ']' then ['[', c, ']'] else [c]

/-- The text as a pattern that matches only itself. -/
def escape (t : Text) : Text :=
  t.flatMap escapeChar

/-! ## Matching -/

/-- What trying to match the rest of a pattern gives. -/
inductive Outcome
  /-- The rest of the pattern matches the rest of the text. -/
  | matched
  /-- It does not, but may match a shorter rest. -/
  | mismatched
  /-- The text is too short, and no shorter rest can match. -/
  | exhausted
  deriving DecidableEq, Repr

/-- Whether a character is in one of the ranges. -/
def inRanges (ranges : List (Char × Char)) (c : Char) : Bool :=
  ranges.any fun (low, high) => low ≤ c && c ≤ high

/-- Whether a wildcard may match `c`: not where a hidden name must be spelled out. `fresh` says that
a component starts here. -/
def dotAllowed (spelled fresh : Bool) (c : Char) : Bool :=
  !(fresh && spelled && c = '.')

/-- Whether an element that stands for one character matches it. -/
def Token.matchesChar (spelled fresh : Bool) (c : Char) : Token → Bool
  | .char d => c = d
  | .anyChar => c != '/' && dotAllowed spelled fresh c
  | .oneOf negated ranges =>
    c != '/' && dotAllowed spelled fresh c && (inRanges ranges c != negated)
  | _ => false

/-- Lets a row of characters grow, from the rest of the text on, until `next` settles the match.
`whole` says that the row consists of whole components. -/
def growRow (spelled whole : Bool) (next : Bool → Text → Outcome) : Bool → Text → Outcome
  | fresh, [] => next fresh []
  | fresh, c :: rest =>
    if !dotAllowed spelled fresh c then .mismatched
    else if whole && c != '/' then growRow spelled whole next false rest
    else if !whole && c = '/' then .mismatched
    else
      match next (c = '/') rest with
      | .mismatched => growRow spelled whole next (c = '/') rest
      | settled => settled

/-- Matches a row of characters, the empty one first. -/
def matchRow (spelled whole : Bool) (next : Bool → Text → Outcome) (fresh : Bool) (t : Text) :
    Outcome :=
  match next fresh t with
  | .mismatched => growRow spelled whole next fresh t
  | settled => settled

/-- Matches the rest of a pattern against the rest of a text. -/
def matchFrom (spelled : Bool) : List Token → Bool → Text → Outcome
  | [], _, t => if t = [] then .matched else .mismatched
  | .anySequence :: tokens, fresh, t => matchRow spelled false (matchFrom spelled tokens) fresh t
  | .anyComponents :: tokens, fresh, t => matchRow spelled true (matchFrom spelled tokens) fresh t
  | _ :: _, _, [] => .exhausted
  | token :: tokens, fresh, c :: rest =>
    if token.matchesChar spelled fresh c then matchFrom spelled tokens (c = '/') rest
    else .mismatched

/-- Whether the pattern matches the whole text. `spelled` says that hidden names must be spelled
out. -/
def Pattern.accepts (p : Pattern) (spelled : Bool) (t : Text) : Bool :=
  matchFrom spelled p.tokens true t = .matched

end Typesweep.Glob
