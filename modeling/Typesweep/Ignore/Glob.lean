import Typesweep.Text.Classes
import Typesweep.Text.Utf8

/-!
# Rule patterns

The patterns of ignore rules, matched against the bytes of relative paths.

* `?` is one byte and `*` any row of bytes, a slash excepted.
* `**/` at the start, `/**/` and a final `/**` stand for any row of components; elsewhere two stars
  are two single ones.
* `[abc]`, `[a-z]`, `[!a]` and `[^a]` are one byte of a class. The first character of a class does
  not close it, and a bracket that no other bracket closes is an ordinary character, like every
  bracket after it.
* `{a,b}` is one of several alternatives, which may hold alternatives again.
* A backslash makes the character after it an ordinary one.

* `IgnoreGlob.parse`: reading a pattern; `none` if it breaks a rule.
* `IgnoreGlob.accepts`: matching. An element gives the rests of the bytes that it can leave
  (`Token.rests`), and a pattern matches if it can leave nothing.
-/

namespace Typesweep.IgnoreGlob

open RawText (slash)

/-- One element of a rule pattern. -/
inductive Token
  | literal (c : Char)
  | any
  /-- A row of bytes without a slash. -/
  | row
  /-- `**/` at the start: any components with the slash after them, also none. -/
  | leadingComponents
  /-- `/**` at the end: a slash and anything after it. -/
  | trailingComponents
  /-- `/**/`: a slash, or any components between slashes. -/
  | innerComponents
  /-- One byte of the ranges, ends included, or one outside of them. -/
  | oneOf (negated : Bool) (ranges : List (Char × Char))
  /-- One of several patterns. -/
  | alternatives (branches : List (List Token))

/-! ## Reading -/

/-- An enclosing pair of braces: its finished branches and the tokens before it, each in reverse
order. -/
structure Group where
  /-- The finished branches, the last one first. -/
  branches : List (List Token)
  /-- The tokens before the opening brace, the last one first. -/
  before : List Token

/-- What the reader has read: the tokens of the current branch, the last one first, the enclosing
pairs of braces, the innermost first, and the last character. -/
structure Progress where
  /-- The tokens of the current branch, the last one first. -/
  tokens : List Token := []
  /-- The enclosing pairs of braces, the innermost first. -/
  groups : List Group := []
  /-- The character before the next one. -/
  last : Option Char := none
  /-- Whether a bracket was found that no other bracket closes. -/
  unclosed : Bool := false

namespace Progress

/-- With a token added, read up to the character `c`. -/
def push (p : Progress) (token : Token) (c : Char) : Progress :=
  { p with tokens := token :: p.tokens, last := some c }

/-- With an opening brace read. -/
def openGroup (p : Progress) : Progress :=
  { p with tokens := [], groups := ⟨[], p.tokens⟩ :: p.groups, last := some '\x7b' }

/-- With a closing brace read, if a brace is open. -/
def closeGroup? (p : Progress) : Option Progress :=
  match p.groups with
  | [] => none
  | g :: groups =>
    let branches := ((p.tokens.reverse) :: g.branches).reverse
    some { p with
      tokens := .alternatives branches :: g.before
      groups := groups
      last := some '\x7d' }

/-- With a comma read: inside braces it starts a new branch. -/
def comma (p : Progress) : Progress :=
  match p.groups with
  | [] => p.push (.literal ',') ','
  | g :: groups =>
    { p with
      tokens := []
      groups := { g with branches := p.tokens.reverse :: g.branches } :: groups
      last := some ',' }

/-- With two stars read as two single ones. -/
def pushRows (p : Progress) : Progress :=
  { p with tokens := .row :: .row :: p.tokens, last := some '*' }

/-- With the last token replaced by a row of components, unless it is one at the start or the end
already. -/
def replaceLast (p : Progress) (token : Token) (c : Char) : Progress :=
  match p.tokens with
  | .leadingComponents :: _ => { p with last := some c }
  | .trailingComponents :: _ => { p with last := some c }
  | _ :: rest => { p with tokens := token :: rest, last := some c }
  | [] => { p with tokens := [token], last := some c }

/-- What two stars mean, by what follows them. Gives the progress and whether the slash after the
stars belongs to them. -/
def stars (p : Progress) (following : Option Char) : Progress × Bool :=
  let inGroup := !p.groups.isEmpty
  if p.tokens.isEmpty then
    match following with
    | none => (p.push .leadingComponents '*', false)
    | some c => if c = '/' then (p.push .leadingComponents '/', true) else (p.pushRows, false)
  else if p.last ≠ some '/' ∧ ¬(inGroup ∧ (p.last = some ',' ∨ p.last = some '\x7b')) then
    (p.pushRows, false)
  else
    match following with
    | none => (p.replaceLast .trailingComponents '*', false)
    | some c =>
      if inGroup ∧ (c = ',' ∨ c = '\x7d') then (p.replaceLast .trailingComponents '*', false)
      else if c = '/' then (p.replaceLast .innerComponents '/', true)
      else (p.pushRows, false)

end Progress

/-- What reading a class from after its bracket gives. -/
inductive ClassReading
  /-- The class, the text after it, and the character before its closing bracket. -/
  | closed (negated : Bool) (ranges : List (Char × Char)) (rest : Text)
  /-- No bracket closes it. -/
  | unclosed
  /-- A range ends before it starts. -/
  | invalid

/-- Reads the characters of a class. `ranges` are those read so far, the last one first; `pending`
says that a minus was read that may make a range of the last one. -/
def readRanges (negated first pending : Bool) (ranges : List (Char × Char)) :
    Text → ClassReading
  | [] => .unclosed
  | c :: rest =>
    if c = ']' ∧ ¬first then
      .closed negated (if pending then ('-', '-') :: ranges else ranges).reverse rest
    else if c = '-' ∧ ¬first ∧ ¬pending then readRanges negated false true ranges rest
    else if pending then
      match ranges with
      | (low, _) :: others =>
        if c.toNat < low.toNat then .invalid
        else readRanges negated false false ((low, c) :: others) rest
      | [] => .invalid
    else readRanges negated false false ((c, c) :: ranges) rest

/-- Reads a class from after its bracket. -/
def readClass : Text → ClassReading
  | '!' :: rest => readRanges true true false [] rest
  | '^' :: rest => readRanges true true false [] rest
  | t => readRanges false true false [] t

/-- Reads a pattern; `fuel` bounds the number of steps by the length of the text. -/
def parseFrom : Nat → Progress → Text → Option (List Token)
  | 0, _, _ => none
  | _ + 1, p, [] => if p.groups.isEmpty then some p.tokens.reverse else none
  | fuel + 1, p, c :: rest =>
    if c = '?' then parseFrom fuel (p.push .any c) rest
    else if c = '*' then
      match rest with
      | '*' :: rest =>
        let (p, withSlash) := p.stars rest.head?
        parseFrom fuel p (if withSlash then rest.drop 1 else rest)
      | _ => parseFrom fuel (p.push .row c) rest
    else if c = '[' ∧ ¬p.unclosed then
      match readClass rest with
      | .closed negated ranges rest =>
        parseFrom fuel (p.push (.oneOf negated ranges) ']') rest
      | .unclosed => parseFrom fuel { p.push (.literal c) c with unclosed := true } rest
      | .invalid => none
    else if c = '\x7b' then parseFrom fuel p.openGroup rest
    else if c = '\x7d' then
      match p.closeGroup? with
      | some p => parseFrom fuel p rest
      | none => none
    else if c = ',' then parseFrom fuel p.comma rest
    else if c = '\\' then
      match rest with
      | [] => none
      | d :: rest => parseFrom fuel (p.push (.literal d) d) rest
    else parseFrom fuel (p.push (.literal c) c) rest

/-- Reads a pattern; none if a range ends before it starts, a brace has no partner, or a backslash
ends the text. -/
def parse (t : Text) : Option (List Token) :=
  parseFrom (t.length + 1) {} t

/-! ## Matching -/

/-- The ranges of bytes of a class: of a character of several bytes, every byte counts by itself,
and a range of such characters goes from the last byte of the first to the first byte of the
last. -/
def byteRanges (range : Char × Char) : List (UInt8 × UInt8) :=
  let low := String.utf8EncodeChar range.1
  let high := String.utf8EncodeChar range.2
  if range.1 = range.2 then low.map fun b => (b, b)
  else
    low.dropLast.map (fun b => (b, b)) ++ [(low.getLastD 0, high.headD 0)] ++
      high.tail.map fun b => (b, b)

/-- Whether a byte is of a class. -/
def inClass (negated : Bool) (ranges : List (Char × Char)) (b : UInt8) : Bool :=
  (ranges.flatMap byteRanges).any (fun (low, high) => low ≤ b && b ≤ high) != negated

/-- All rests of a list of bytes, the whole list first. -/
def suffixes : RawText → List RawText
  | [] => [[]]
  | b :: rest => (b :: rest) :: suffixes rest

/-- The rests after each slash. -/
def afterSlashes : RawText → List RawText
  | [] => []
  | b :: rest => if b = slash then rest :: afterSlashes rest else afterSlashes rest

/-- The rests after a row of bytes without a slash. -/
def afterRow : RawText → List RawText
  | [] => [[]]
  | b :: rest => if b = slash then [b :: rest] else (b :: rest) :: afterRow rest

mutual

/-- Whether an element stands for nothing at all. -/
def Token.isVoid : Token → Bool
  | .alternatives branches => branchesAreVoid branches
  | _ => false

/-- Whether all elements of a row stand for nothing. -/
def tokensAreVoid : List Token → Bool
  | [] => true
  | token :: tokens => token.isVoid && tokensAreVoid tokens

/-- Whether all branches are empty. -/
def branchesAreVoid : List (List Token) → Bool
  | [] => true
  | branch :: branches => tokensAreVoid branch && branchesAreVoid branches

end

mutual

/-- The rests that an element can leave of a list of bytes. Of alternatives only the branches that
are not empty count; if there is none, all of the bytes are left. -/
def Token.rests : Token → RawText → List RawText
  | .literal c, s => ((String.utf8EncodeChar c).isPrefixOf? s).toList
  | .any, s =>
    match s with
    | b :: rest => if b = slash then [] else [rest]
    | [] => []
  | .row, s => afterRow s
  | .leadingComponents, s => s :: afterSlashes s
  | .trailingComponents, s =>
    match s with
    | b :: rest => if b = slash then suffixes rest else []
    | [] => []
  | .innerComponents, s =>
    match s with
    | b :: rest => if b = slash then rest :: afterSlashes rest else []
    | [] => []
  | .oneOf negated ranges, s =>
    match s with
    | b :: rest => if inClass negated ranges b then [rest] else []
    | [] => []
  | .alternatives branches, s =>
    if branchesAreVoid branches then [s] else restsOfBranches branches s

/-- The rests that a row of elements can leave of one of several lists of bytes, each once. -/
def restsOfAll : List Token → List RawText → List RawText
  | [], ss => ss
  | token :: tokens, ss => restsOfAll tokens (ss.flatMap fun s => token.rests s).eraseDups

/-- The rests that one of the branches that are not empty can leave. -/
def restsOfBranches : List (List Token) → RawText → List RawText
  | [], _ => []
  | branch :: branches, s =>
    (if tokensAreVoid branch then [] else restsOfAll branch [s]) ++ restsOfBranches branches s

end

/-- Whether a pattern matches a whole list of bytes. Two stars alone match everything. -/
def accepts (tokens : List Token) (s : RawText) : Bool :=
  match tokens with
  | [.leadingComponents] => true
  | _ => (restsOfAll tokens [s]).contains []

end Typesweep.IgnoreGlob
