import Typesweep.Text.Utf8

/-!
# Shell commands

The checkers in a tree are shell scripts. A script is a command put together from simpler ones; a
command names the program to run by words, and a word is a row of pieces that become text only
when the command is run.

A shell does not look at characters. Its texts are rows of bytes here too, each byte written as the
character of that number.

* `Shell.ofRaw`, `Shell.toRaw`: bytes as a text of a shell, and back.
* `Piece`, `Word`: words before they are expanded.
* `Command`: commands.
-/

namespace Typesweep.Shell

/-- The text of a shell that holds the bytes. -/
def ofRaw (bytes : RawText) : Text :=
  bytes.map fun b => Char.ofNat b.toNat

/-- The bytes that a text of a shell holds. -/
def toRaw (t : Text) : RawText :=
  t.map fun c => UInt8.ofNat c.toNat

/-- What a fallback does when a parameter has no value. -/
inductive Fallback
  /-- Its word stands in for the value. -/
  | substitute
  | assign
  /-- Its word stands for a parameter that does have a value, and nothing for one that has none. -/
  | invert
  | demand
  deriving DecidableEq, Repr

/-- Where a redirection points a stream. -/
inductive Direction
  | input
  /-- Write to a file, which starts empty. -/
  | output
  /-- Write to the end of a file. -/
  | append
  /-- Write to where another stream goes. -/
  | duplicate
  /-- Read the word itself. -/
  | inline
  deriving DecidableEq, Repr

mutual

/-- A piece of a word. -/
inductive Piece
  /-- Text outside of quotes, in which pattern characters count. -/
  | plain (text : Text)
  /-- Text between single quotes or after a backslash. -/
  | verbatim (text : Text)
  | quoted (pieces : List Piece)
  | parameter (name : Text)
  /-- Number of bytes of the value of a parameter. -/
  | length (name : Text)
  /-- The value of a parameter, with a fallback for one that is unset, or empty if `orEmpty`. -/
  | fallback (name : Text) (kind : Fallback) (orEmpty : Bool) (word : List Piece)
  /-- The value of a parameter without what a pattern matches at its start or its end. -/
  | cut (name : Text) (atEnd longest : Bool) (pattern : List Piece)
  | output (command : Command)
  | arithmetic (expression : List Piece)

/-- A redirection of a stream. -/
inductive Redirect
  | mk (stream : Nat) (direction : Direction) (word : List Piece)

/-- A command. -/
inductive Command
  /-- A program with its arguments; without words, the assignments are the script's own. -/
  | simple (assignments : List (Text × List Piece)) (words : List (List Piece))
      (redirects : List Redirect)
  | sequence (commands : List Command)
  /-- The second one if the first one succeeds. -/
  | andThen (first second : Command)
  /-- The second one if the first one fails. -/
  | orElse (first second : Command)
  /-- Succeeds if the command fails. -/
  | negated (command : Command)
  /-- The second one reads what the first one prints. -/
  | pipe (first second : Command)
  | branch (test yes no : Command)
  /-- As long as a test succeeds, or until it does. -/
  | loop (untilTrue : Bool) (test body : Command)
  /-- Once for each word, or for each argument of the script. -/
  | each (name : Text) (words : Option (List (List Piece))) (body : Command)
  /-- The first case with a pattern that matches a word. -/
  | choice (subject : List Piece) (cases : List (List (List Piece) × Command))
  /-- In a shell of its own, which shares nothing but the tree. -/
  | subshell (body : Command)
  /-- In a shell of its own, whose success does not matter. -/
  | background (body : Command)
  | redirected (body : Command) (redirects : List Redirect)
  /-- Gives a name to a command. -/
  | define (name : Text) (body : Command)
  | malformed

end

/-- A word, as its pieces. -/
abbrev Word := List Piece

/-- The word with a character outside of quotes before it. -/
def Word.consPlain (c : Char) : Word → Word
  | .plain t :: rest => .plain (c :: t) :: rest
  | rest => .plain [c] :: rest

end Typesweep.Shell
