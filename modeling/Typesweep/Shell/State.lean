import Typesweep.FileTree.Basic
import Typesweep.Shell.Command

/-!
# The state of a shell

What a running script has and changes: the tree, the directory it stands in, its parameters, its
streams, and how it goes on.

* `State`: the state.
* `State.value?`: the value of a parameter.
* `State.print`, `State.complain`: writing to the two output streams.
-/

namespace Typesweep.Shell

/-- Where an output stream goes. -/
inductive Sink
  /-- To what is collected for the reader of the script's output. -/
  | collected
  | dropped
  /-- To the end of a file. -/
  | file (place : Place)
  deriving DecidableEq, Repr

/-- How a script goes on after a command. -/
inductive Flow
  | next
  /-- After the loop that is so many loops further out. -/
  | leave (outer : Nat)
  /-- With the next round of the loop that is so many loops further out. -/
  | again (outer : Nat)
  /-- After the call of the function it is in. -/
  | back
  /-- Not at all: it has exited. -/
  | exit
  /-- Not at all: a signal has ended it. -/
  | killed
  deriving DecidableEq, Repr

/-- The state of a running script. -/
structure State where
  tree : FileTree
  here : Place
  script : Text
  arguments : List Text
  bindings : List (Text × Text)
  functions : List (Text × Command) := []
  /-- The variables that the function which runs now has covered, with what they were before. -/
  covered : List (Text × Option Text) := []
  /-- What to do on signals; zero is the end of the script. -/
  traps : List (Nat × Text) := []
  /-- What signals have asked for and is still to be done. -/
  pending : List Text := []
  input : List UInt8 := []
  /-- What has been collected, the last bytes first. -/
  collected : List UInt8 := []
  stdout : Sink := .collected
  stderr : Sink := .dropped
  status : Nat := 0
  flow : Flow := .next
  /-- Whether the script exits when a command fails. -/
  strict : Bool := false
  /-- Whether the script exits when a parameter without a value is used. -/
  demanding : Bool := false
  /-- Whether the commands run now are only tested for success. -/
  tested : Bool := false

namespace State

/-! ## Status and flow -/

/-- With an exit status, which is a byte. -/
def withStatus (s : State) (status : Nat) : State :=
  { s with status := status % 256 }

/-- With the status of a command that has succeeded or not. -/
def answer (s : State) (holds : Bool) : State :=
  s.withStatus (if holds then 0 else 1)

/-- Whether the last command has succeeded. -/
def succeeded (s : State) : Bool :=
  s.status = 0

/-- Exited with a status. -/
def exited (s : State) (status : Nat) : State :=
  { s.withStatus status with flow := .exit }

/-- Does something, if the script goes on with the next command. -/
def andThen (s : State) (more : State → State) : State :=
  if s.flow = .next then more s else s

/-! ## Parameters -/

/-- Without a variable. -/
def unset (s : State) (name : Text) : State :=
  { s with bindings := s.bindings.filter fun v => v.1 ≠ name }

/-- With a value for a variable. -/
def assign (s : State) (name value : Text) : State :=
  { s with bindings := (name, value) :: (s.unset name).bindings }

/-- The number of the process that runs the script. -/
def processId : Nat := 4711

/-- The value of a parameter. -/
def value? (s : State) (name : Text) : Option Text :=
  match name with
  | ['#'] => some (Text.ofNat s.arguments.length)
  | ['?'] => some (Text.ofNat s.status)
  | ['$'] => some (Text.ofNat processId)
  | ['-'] => some (if s.strict then ['e'] else [])
  | ['!'] => none
  | ['*'] => if s.arguments.isEmpty then none else some (Text.joinWith [' '] s.arguments)
  | ['@'] => if s.arguments.isEmpty then none else some (Text.joinWith [' '] s.arguments)
  | _ =>
    match Text.numeral? name with
    | some 0 => some s.script
    | some (n + 1) => s.arguments[n]?
    | none => s.bindings.lookup name

/-! ## The tree -/

/-- The place that a path leads to from the working directory. -/
def find (s : State) (path : Text) : Except AccessError Place :=
  if path.isEmpty then .error .notFound
  else
    let p : Path := ⟨toRaw path⟩
    s.tree.follow FileTree.maxLinks (if p.isAbsolute then [] else s.here) p.segments

/-- What a path leads to from the working directory. -/
def entry? (s : State) (path : Text) : Option Entry :=
  match s.find path with
  | .ok place => s.tree.entry? place
  | .error _ => none

/-- The directory that holds what a path names, and the name there. -/
def holder (s : State) (path : Text) : Except AccessError (Place × RawText) :=
  let segments := Path.dropNoiseEnd (Path.mk (toRaw path)).segments
  match segments.getLast? with
  | none => .error .notFound
  | some name =>
    let above := segments.dropLast
    match
      if above.isEmpty then .ok s.here
      else s.find (Text.joinWith ['/'] (above.map ofRaw) ++ ['/']) with
    | .ok place =>
      if s.tree.entry? place = some .dir then .ok (place, name) else .error .notADirectory
    | .error e => .error e

/-- The device that swallows what is written and has nothing to read. -/
def nullDevice : Text := "/dev/null".toList

/-- The bytes of the file at a path. -/
def readFile (s : State) (path : Text) : Except AccessError (List UInt8) :=
  if path = nullDevice then .ok []
  else
    match s.find path with
    | .error e => .error e
    | .ok place =>
      match s.tree.entry? place with
      | some (.file content _) => .ok content
      | some _ => .error .isADirectory
      | none => .error .notFound

/-- The place of the file to write at a path, and whether one is there. -/
def writable (s : State) (path : Text) : Except AccessError (Place × Bool) :=
  match s.find path with
  | .ok place =>
    if s.tree.entry? place = some .dir then .error .isADirectory else .ok (place, true)
  | .error .notFound => (s.holder path).map fun (dir, name) => (dir ++ [name], false)
  | .error e => .error e

/-- With the bytes of a file. A file that is there may be run as before. -/
def putFile (s : State) (place : Place) (bytes : List UInt8) : State :=
  let executable := match s.tree.entry? place with
    | some (.file _ executable) => executable
    | _ => false
  { s with tree := s.tree.put place (.file bytes executable) }

/-! ## Streams -/

/-- Writes bytes to where a stream goes. -/
def write (s : State) (sink : Sink) (bytes : List UInt8) : State :=
  match sink with
  | .collected => { s with collected := bytes.reverse ++ s.collected }
  | .dropped => s
  | .file place =>
    match s.tree.entry? place with
    | some (.file content _) => s.putFile place (content ++ bytes)
    | _ => s.putFile place bytes

/-- Writes bytes to the output. -/
def printBytes (s : State) (bytes : List UInt8) : State :=
  s.write s.stdout bytes

/-- Writes a text to the output. -/
def print (s : State) (t : Text) : State :=
  s.printBytes (toRaw t)

/-- Writes a line to the stream for complaints. -/
def complain (s : State) (t : Text) : State :=
  s.write s.stderr (toRaw (t ++ ['\n']))

/-- A complaint of the shell itself. -/
def complainOf (s : State) (subject : Text) (what : String) : State :=
  s.complain (s.script ++ ": ".toList ++ subject ++ ": ".toList ++ what.toList)

/-- The text that a command prints: it runs in a state of its own, of which only the tree, the
status and the rest of the input are kept. Newlines at the end are dropped. -/
def capture (s : State) (run : State → State) : Text × State :=
  let inner := run { s with collected := [], stdout := .collected }
  let bytes := (inner.collected.dropWhile (· = 10)).reverse
  (ofRaw bytes,
    { s with
      tree := inner.tree
      input := inner.input
      status := inner.status
      flow := if inner.flow = .killed then .killed else s.flow })

/-- Runs something in a state of its own, of which only the tree, the status, the streams and what
was printed are kept. -/
def separately (s : State) (run : State → State) : State :=
  let inner := run s
  { s with
    tree := inner.tree
    input := inner.input
    collected := inner.collected
    status := inner.status
    flow := if inner.flow = .killed then .killed else s.flow }

end State

end Typesweep.Shell
