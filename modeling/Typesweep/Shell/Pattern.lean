import Typesweep.Text

/-!
# Shell patterns

A pattern is what a word becomes where it is compared rather than used: characters that stand for
themselves, and, outside of quotes, `*`, `?` and sets of characters in brackets.

* `Pattern.ofField`: the pattern of a field.
* `Pattern.accepts`: what a pattern matches.
-/

namespace Typesweep.Shell

/-- Characters of an expanded word, each with whether it was quoted. -/
abbrev Field := List (Char × Bool)

/-- The text of a field. -/
def Field.text (f : Field) : Text :=
  f.map Prod.fst

/-- What one position of a pattern matches. -/
inductive Atom
  | one (c : Char)
  | any
  | many
  /-- Any character of some ranges, or of none of them. -/
  | set (negated : Bool) (ranges : List (Char × Char))
  deriving DecidableEq, Repr

/-- A pattern. -/
abbrev Pattern := List Atom

namespace Pattern

/-- The ranges of a set up to the bracket that closes it, and the field after that. A bracket at
the start of the set closes nothing. -/
def rangesOf? (isFirst : Bool) : Field → Option (List (Char × Char) × Field)
  | [] => none
  | (c, quoted) :: rest =>
    if c = ']' ∧ !quoted ∧ !isFirst then some ([], rest)
    else
      match rest with
      | ('-', false) :: (']', false) :: later => some ([(c, c), ('-', '-')], later)
      | ('-', false) :: (e, _) :: later =>
        (rangesOf? false later).map fun (ranges, later) => ((c, e) :: ranges, later)
      | rest => (rangesOf? false rest).map fun (ranges, later) => ((c, c) :: ranges, later)

/-- The set in brackets at the start of a field, from after the opening one. -/
def set? (f : Field) : Option (Atom × Field) :=
  match f with
  | ('!', false) :: rest =>
    (rangesOf? true rest).map fun (ranges, later) => (.set true ranges, later)
  | _ => (rangesOf? true f).map fun (ranges, later) => (.set false ranges, later)

/-- The pattern of a field, of which at most `length` positions are read. -/
def ofFieldUpTo : Nat → Field → Pattern
  | 0, _ => []
  | _, [] => []
  | length + 1, (c, quoted) :: rest =>
    if quoted then .one c :: ofFieldUpTo length rest
    else if c = '*' then .many :: ofFieldUpTo length rest
    else if c = '?' then .any :: ofFieldUpTo length rest
    else if c = '[' then
      match set? rest with
      | some (set, later) => set :: ofFieldUpTo length later
      | none => .one c :: ofFieldUpTo length rest
    else .one c :: ofFieldUpTo length rest

/-- The pattern of a field. -/
def ofField (f : Field) : Pattern :=
  ofFieldUpTo f.length f

/-- Whether a pattern matches nothing but a text of its own. -/
def isLiteral (p : Pattern) : Bool :=
  p.all fun
    | .one _ => true
    | _ => false

/-- Whether a position matches a character. -/
def acceptsChar (c : Char) : Atom → Bool
  | .one d => c = d
  | .any => true
  | .many => true
  | .set negated ranges => negated != ranges.any fun (first, last) => first ≤ c && c ≤ last

/-- The text itself and what is left of it after one or more characters. -/
def remainders : Text → List Text
  | [] => [[]]
  | c :: rest => (c :: rest) :: remainders rest

/-- Whether the pattern matches the whole text. -/
def accepts : Pattern → Text → Bool
  | [], t => t.isEmpty
  | .many :: p, t => (remainders t).any (accepts p)
  | _ :: _, [] => false
  | a :: p, c :: rest => acceptsChar c a && accepts p rest

/-- The text without what the pattern matches at its start: the longest such beginning, or the
shortest. -/
def cutStart (p : Pattern) (longest : Bool) (t : Text) : Text :=
  let lengths := List.range (t.length + 1)
  match (if longest then lengths.reverse else lengths).find? fun n => accepts p (t.take n) with
  | some n => t.drop n
  | none => t

/-- The text without what the pattern matches at its end: the longest such ending, or the
shortest. -/
def cutEnd (p : Pattern) (longest : Bool) (t : Text) : Text :=
  let lengths := List.range (t.length + 1)
  match (if longest then lengths else lengths.reverse).find? fun n => accepts p (t.drop n) with
  | some n => t.take n
  | none => t

end Pattern

end Typesweep.Shell
