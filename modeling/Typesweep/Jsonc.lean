import Typesweep.Text.Classes

/-!
# JSON with comments

Configurations may hold `//` and `/* */` comments, and a comma before a closing bracket or brace.
`Jsonc.strip` takes both away, outside of strings, and what is left is JSON. It goes over the text
once and keeps every newline, so that a fault found later is still on its line.

A block comment leaves a space and ends at the first `*/` that starts after its opening, so `/*/`
opens a comment and does not close it. A comment that is never closed goes on to the end.
-/

namespace Typesweep.Jsonc

/-- Where the reader is. -/
inductive Mode
  | code
  | string
  /-- Inside a string, just after a backslash. -/
  | escaped
  | lineComment
  /-- Inside a block comment; `star` says whether the character before was a `*` of it. -/
  | blockComment (star : Bool)
  deriving DecidableEq, Repr

/-- The text so far, last character first, without a comma that only blanks follow. -/
def dropComma (done : Text) : Text :=
  match done.dropWhile Text.isBlank with
  | ',' :: before => done.takeWhile Text.isBlank ++ before
  | _ => done

/-- Goes on in a mode with the text so far, last character first. -/
def scan : Mode → Text → Text → Text
  | _, done, [] => done
  | .code, done, '/' :: '/' :: rest => scan .lineComment done rest
  | .code, done, '/' :: '*' :: rest => scan (.blockComment false) (' ' :: done) rest
  | .code, done, c :: rest =>
    if c = '"' then scan .string ('"' :: done) rest
    else if c = '\x7d' ∨ c = ']' then scan .code (c :: dropComma done) rest
    else scan .code (c :: done) rest
  | .string, done, c :: rest =>
    if c = '\\' then scan .escaped (c :: done) rest
    else if c = '"' then scan .code (c :: done) rest
    else scan .string (c :: done) rest
  | .escaped, done, c :: rest => scan .string (c :: done) rest
  | .lineComment, done, c :: rest =>
    if c = '\n' then scan .code (c :: done) rest else scan .lineComment done rest
  | .blockComment star, done, c :: rest =>
    if c = '\n' then scan (.blockComment false) (c :: done) rest
    else if star ∧ c = '/' then scan .code done rest
    else scan (.blockComment (c = '*')) done rest

/-- The text without comments, without commas before a closing bracket or brace, and without a byte
order mark at its start. -/
def strip (t : Text) : Text :=
  match t with
  | '\ufeff' :: rest => (scan .code [] rest).reverse
  | _ => (scan .code [] t).reverse

end Typesweep.Jsonc
