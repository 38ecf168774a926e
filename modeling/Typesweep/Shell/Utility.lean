import Typesweep.Shell.Format
import Typesweep.Shell.Reader
import Typesweep.Shell.State

/-!
# Utilities

The programs that scripts use, each as what it does to the state of the shell with its arguments.

* `utility?`: the utility of a name.
-/

namespace Typesweep.Shell

/-- What a program does with its arguments. -/
abbrev Utility := List Text → State → State

namespace Utility

/-! ## Arguments -/

/-- The number that an argument writes: digits with blanks around them and perhaps a sign. -/
def integer? (t : Text) : Option Int :=
  let isSpace := fun c : Char => c = ' ' || (9 ≤ c.toNat && c.toNat ≤ 13)
  match Text.trim isSpace t with
  | '-' :: digits => (Text.numeral? digits).map fun n => -(n : Int)
  | '+' :: digits => (Text.numeral? digits).map Int.ofNat
  | digits => (Text.numeral? digits).map Int.ofNat

/-- The count that an argument writes. -/
def count? (t : Text) : Option Nat :=
  match integer? t with
  | some (.ofNat n) => if n < 2147483648 then some n else none
  | _ => none

/-- The options before the other arguments, and those. -/
def splitOptions : List Text → List Text × List Text
  | [] => ([], [])
  | ['-', '-'] :: rest => ([], rest)
  | ('-' :: c :: cs) :: rest =>
    let (options, operands) := splitOptions rest
    (('-' :: c :: cs) :: options, operands)
  | rest => ([], rest)

/-- Whether one of the options holds a letter. -/
def hasOption (options : List Text) (letter : Char) : Bool :=
  options.any fun o => o.contains letter

/-- Fails because of an argument. -/
def fail (s : State) (program : String) (subject : Text) (what : String) : State :=
  (s.complain (program.toList ++ ": ".toList ++ subject ++ ": ".toList ++ what.toList)).withStatus 1

/-- Why a path leads nowhere. -/
def reason : AccessError → String
  | .notFound => "No such file or directory"
  | .notADirectory => "Not a directory"
  | .tooManyLinks => "Too many levels of symbolic links"
  | .isADirectory => "Is a directory"
  | .permissionDenied => "Permission denied"
  | .notUtf8 => "Invalid argument"

/-- Does something with each operand; fails if it fails for one. -/
def forEach (act : Text → State → State) : List Text → State → State
  | [], s => s.withStatus 0
  | t :: rest, s =>
    let first := act t s
    let s := forEach act rest first
    if first.succeeded then s else s.withStatus first.status

/-! ## Text -/

/-- Writes its arguments, with escapes, and a newline unless the first one is `-n`. -/
def echo : Utility := fun arguments s =>
  let (newline, arguments) := match arguments with
    | ['-', 'n'] :: rest => (false, rest)
    | arguments => (true, arguments)
  let (bytes, stops) := unescapeAll arguments
  (s.printBytes (if newline && !stops then bytes ++ [10] else bytes)).withStatus 0

/-- Writes its arguments by a format. -/
def printf : Utility := fun arguments s =>
  let arguments := match arguments with
    | ['-', '-'] :: rest => rest
    | arguments => arguments
  match arguments with
  | [] => s.withStatus 2
  | format :: arguments =>
    let (bytes, status) := Format.render format arguments
    (s.printBytes bytes).withStatus status

/-- Writes what it can read to the output. -/
def copyInput (s : State) : State :=
  ({ s with input := [] }.printBytes s.input).withStatus 0

/-- Writes files to the output. -/
def cat : Utility := fun arguments s =>
  match (splitOptions arguments).2 with
  | [] => copyInput s
  | paths =>
    forEach (fun path s =>
      if path = ['-'] ∨ path = "/dev/stdin".toList then copyInput s
      else
        match s.readFile path with
        | .ok bytes => (s.printBytes bytes).withStatus 0
        | .error e => fail s "cat" path (reason e)) paths s

/-- A text without the backslashes that keep the meaning of the character after them. -/
def withoutBackslashes : Text → Text
  | '\\' :: c :: rest => c :: withoutBackslashes rest
  | c :: rest => c :: withoutBackslashes rest
  | [] => []

/-- Cuts the next line of the input into variables. -/
def read : Utility := fun arguments s =>
  let (options, names) := splitOptions arguments
  let (line, rest) := s.input.span (· ≠ 10)
  let s := { s with input := rest.drop 1 }
  let isBlank := fun c : Char => c = ' ' || c = '\t'
  let line := Text.trim isBlank (ofRaw line)
  let line := if hasOption options 'r' then line else withoutBackslashes line
  let rec share : List Text → Text → State → State
    | [], _, s => s
    | [name], line, s => s.assign name line
    | name :: names, line, s =>
      let (first, later) := line.span fun c => !isBlank c
      share names (later.dropWhile isBlank) (s.assign name first)
  (share names line s).answer !rest.isEmpty

/-! ## Paths -/

/-- The path without slashes at its end. -/
def withoutSlashes (t : Text) : Text :=
  Text.trimEnd (· = '/') t

/-- The directory part of a path. -/
def dirname (t : Text) : Text :=
  let path := withoutSlashes t
  if path.isEmpty then (if t.isEmpty then ['.'] else ['/'])
  else if !path.contains '/' then ['.']
  else
    let above := withoutSlashes (Text.trimEnd (· ≠ '/') path)
    if above.isEmpty then ['/'] else above

/-- The last name of a path, without an ending if it has more than that. -/
def basename (t ending : Text) : Text :=
  let path := withoutSlashes t
  if path.isEmpty then t.take 1
  else
    let name := (Text.splitOn '/' path).getLastD []
    if Text.endsWith ending name && name != ending then name.take (name.length - ending.length)
    else name

/-- Makes a directory. -/
def makeDirectory (parents : Bool) (path : Text) (s : State) : State :=
  let here := if (Path.mk (toRaw path)).isAbsolute then [] else s.here
  if parents then
    { s with tree := (s.tree.makeDirs here (Path.mk (toRaw path)).segments).1 }.withStatus 0
  else
    match s.find path with
    | .ok _ => fail s "mkdir" path "File exists"
    | .error .notFound =>
      match s.holder path with
      | .ok (dir, name) => { s with tree := s.tree.put (dir ++ [name]) .dir }.withStatus 0
      | .error e => fail s "mkdir" path (reason e)
    | .error e => fail s "mkdir" path (reason e)

/-- Removes an empty directory. -/
def removeDirectory (path : Text) (s : State) : State :=
  match s.find path with
  | .error e => fail s "rmdir" path (reason e)
  | .ok place =>
    if s.tree.entry? place ≠ some .dir then fail s "rmdir" path "Not a directory"
    else if !(s.tree.names place).isEmpty then fail s "rmdir" path "Directory not empty"
    else { s with tree := s.tree.drop place }.withStatus 0

/-- Removes a file or link, or a directory if `deep`. -/
def remove (deep force : Bool) (path : Text) (s : State) : State :=
  match s.holder path with
  | .error e => if force then s.withStatus 0 else fail s "rm" path (reason e)
  | .ok (dir, name) =>
    match s.tree.entry? (dir ++ [name]) with
    | none => if force then s.withStatus 0 else fail s "rm" path (reason .notFound)
    | some .dir =>
      if deep then { s with tree := s.tree.drop (dir ++ [name]) }.withStatus 0
      else fail s "rm" path (reason .isADirectory)
    | some _ => { s with tree := s.tree.drop (dir ++ [name]) }.withStatus 0

/-- Makes an empty file, unless there is one. -/
def touch (path : Text) (s : State) : State :=
  match s.writable path with
  | .ok (place, false) => (s.putFile place []).withStatus 0
  | .ok (_, true) => s.withStatus 0
  | .error .isADirectory => s.withStatus 0
  | .error e => fail s "touch" path (reason e)

/-- Goes to a directory. -/
def changeDirectory : Utility := fun arguments s =>
  let path := match (splitOptions arguments).2 with
    | ['-'] :: _ => (s.bindings.lookup "OLDPWD".toList).getD ['.']
    | path :: _ => path
    | [] => (s.bindings.lookup "HOME".toList).getD ['.']
  match s.find path with
  | .error _ => (s.complainOf "cd".toList ("can't cd to " ++ String.ofList path)).withStatus 2
  | .ok place =>
    if s.tree.entry? place = some .dir then
      let s := s.assign "OLDPWD".toList (ofRaw (FileTree.pathTo s.here).raw)
      let s := { s with here := place }
      (s.assign "PWD".toList (ofRaw (FileTree.pathTo place).raw)).withStatus 0
    else (s.complainOf "cd".toList ("can't cd to " ++ String.ofList path)).withStatus 2

/-! ## Tests -/

/-- Whether a test of one operand holds; none if there is no such test. -/
def unaryTest? (s : State) (operator operand : Text) : Option Bool :=
  match String.ofList operator with
  | "-n" => some (!operand.isEmpty)
  | "-z" => some operand.isEmpty
  | "-e" => some ((s.entry? operand).isSome || operand = State.nullDevice)
  | "-f" => some (match s.entry? operand with | some (.file ..) => true | _ => false)
  | "-d" => some (s.entry? operand = some .dir)
  | "-r" => some (s.entry? operand).isSome
  | "-w" => some (s.entry? operand).isSome
  | "-x" =>
    some (match s.entry? operand with | some (.file _ x) => x | some .dir => true | _ => false)
  | "-s" => some (match s.entry? operand with
    | some (.file content _) => !content.isEmpty
    | some _ => true
    | none => false)
  | "-L" => some (isLink operand)
  | "-h" => some (isLink operand)
  | "-t" => some false
  | _ => none
where
  isLink (path : Text) : Bool :=
    match s.holder path with
    | .ok (dir, name) =>
      match s.tree.entry? (dir ++ [name]) with
      | some (.link _) => true
      | _ => false
    | .error _ => false

/-- The answer of a test, if it is a test. -/
inductive Verdict
  | answer (holds : Bool)
  | malformed
  deriving DecidableEq, Repr

/-- The verdict of a comparison of numbers. -/
def compareNumbers (a b : Text) (holds : Int → Int → Bool) : Verdict :=
  match integer? a, integer? b with
  | some a, some b => .answer (holds a b)
  | _, _ => .malformed

/-- The verdict of a test of two operands; none if there is no such test. -/
def binaryTest? (a operator b : Text) : Option Verdict :=
  match String.ofList operator with
  | "=" => some (.answer (a = b))
  | "!=" => some (.answer (a ≠ b))
  | "-eq" => some (compareNumbers a b fun a b => a = b)
  | "-ne" => some (compareNumbers a b fun a b => a ≠ b)
  | "-lt" => some (compareNumbers a b fun a b => a < b)
  | "-le" => some (compareNumbers a b fun a b => a ≤ b)
  | "-gt" => some (compareNumbers a b fun a b => b < a)
  | "-ge" => some (compareNumbers a b fun a b => b ≤ a)
  | _ => none

/-- The verdict of both. -/
def Verdict.and : Verdict → Verdict → Verdict
  | .answer a, .answer b => .answer (a && b)
  | _, _ => .malformed

/-- The verdict of either. -/
def Verdict.or : Verdict → Verdict → Verdict
  | .answer a, .answer b => .answer (a || b)
  | _, _ => .malformed

/-- The opposite verdict. -/
def Verdict.not : Verdict → Verdict
  | .answer a => .answer !a
  | .malformed => .malformed

mutual

/-- A test that holds of its operands, or whose opposite does. -/
def testAt (s : State) : Nat → List Text → Verdict × List Text
  | 0, rest => (.malformed, rest)
  | fuel + 1, arguments =>
    let single := fun (a : Text) (rest : List Text) =>
      if a = ['!'] then
        let (verdict, rest) := testAt s fuel rest
        (verdict.not, rest)
      else if a = ['('] then
        let (verdict, rest) := eitherAt s fuel rest
        match rest with
        | [')'] :: rest => (verdict, rest)
        | _ => (.malformed, rest)
      else
        match rest with
        | b :: later =>
          match unaryTest? s a b with
          | some holds => (.answer holds, later)
          | none => (.answer !a.isEmpty, rest)
        | [] => (.answer !a.isEmpty, [])
    match arguments with
    | [] => (.malformed, [])
    | [a] => (.answer !a.isEmpty, [])
    | a :: operator :: b :: rest =>
      match binaryTest? a operator b with
      | some verdict => (verdict, rest)
      | none => single a (operator :: b :: rest)
    | a :: rest => single a rest

/-- Tests that must all hold. -/
def bothAt (s : State) : Nat → List Text → Verdict × List Text
  | 0, rest => (.malformed, rest)
  | fuel + 1, arguments =>
    let (first, rest) := testAt s fuel arguments
    match rest with
    | ['-', 'a'] :: rest =>
      let (second, rest) := bothAt s fuel rest
      (first.and second, rest)
    | rest => (first, rest)

/-- Tests of which one must hold. -/
def eitherAt (s : State) : Nat → List Text → Verdict × List Text
  | 0, rest => (.malformed, rest)
  | fuel + 1, arguments =>
    let (first, rest) := bothAt s fuel arguments
    match rest with
    | ['-', 'o'] :: rest =>
      let (second, rest) := eitherAt s fuel rest
      (first.or second, rest)
    | rest => (first, rest)

end

/-- Succeeds if a test holds. -/
def test : Utility := fun arguments s =>
  if arguments.isEmpty then s.withStatus 1
  else
    match eitherAt s (4 * arguments.length + 4) arguments with
    | (.answer holds, []) => s.answer holds
    | _ => (s.complainOf "test".toList "bad test").withStatus 2

/-- A test between brackets. -/
def bracket : Utility := fun arguments s =>
  if arguments.getLast? = some [']'] then test arguments.dropLast s
  else (s.complainOf ['['] "missing ]").withStatus 2

/-! ## Control -/

/-- Goes on elsewhere, by a count that the first argument gives, or one. -/
def withCount (act : Nat → State → State) : Utility := fun arguments s =>
  match arguments with
  | [] => act 1 s
  | t :: _ =>
    match count? t with
    | some n => act n s
    | none => (s.complainOf t "Illegal number").exited 2

/-- Ends the script. -/
def exit : Utility := fun arguments s =>
  if arguments.isEmpty then s.exited s.status else withCount (fun n s => s.exited n) arguments s

/-- Ends the call of a function. -/
def leaveFunction : Utility := fun arguments s =>
  if arguments.isEmpty then { s with flow := .back }
  else withCount (fun n s => { s.withStatus n with flow := .back }) arguments s

/-- Drops arguments of the script from the front. -/
def shift : Utility :=
  withCount fun n s =>
    if n ≤ s.arguments.length then { s with arguments := s.arguments.drop n }.withStatus 0
    else (s.complainOf "shift".toList "can't shift that many").exited 2

/-- Sets options and the arguments of the script. -/
def set : Utility := fun arguments s =>
  match arguments with
  | [] => s.withStatus 0
  | ['-', '-'] :: rest => { s with arguments := rest }.withStatus 0
  | ('-' :: letters) :: rest => set rest (withLetters true letters s)
  | ('+' :: letters) :: rest => set rest (withLetters false letters s)
  | rest => { s with arguments := rest }.withStatus 0
where
  withLetters (on : Bool) (letters : Text) (s : State) : State :=
    { s with
      strict := if letters.contains 'e' then on else s.strict
      demanding := if letters.contains 'u' then on else s.demanding }

/-- Assigns variables. -/
def assignAll : Utility := fun arguments s =>
  (arguments.foldl (fun s t =>
    match Text.cutAt? '=' t with
    | some (name, value) => s.assign name value
    | none => s) s).withStatus 0

/-- Assigns variables that are as before after the call of the function that the script is in. -/
def assignLocal : Utility := fun arguments s =>
  (arguments.foldl (fun s t =>
    let (name, value) := match Text.cutAt? '=' t with
      | some (name, value) => (name, some value)
      | none => (t, none)
    let s := { s with covered := (name, s.bindings.lookup name) :: s.covered }
    match value with
    | some value => s.assign name value
    | none => s) s).withStatus 0

/-- Unsets variables and functions. -/
def unset : Utility := fun arguments s =>
  ((splitOptions arguments).2.foldl (fun s name =>
    { s.unset name with functions := s.functions.filter fun f => f.1 ≠ name }) s).withStatus 0

/-! ## Signals -/

/-- The names of the signals. -/
def signals : List (String × Nat) :=
  [("HUP", 1), ("INT", 2), ("QUIT", 3), ("ILL", 4), ("TRAP", 5), ("ABRT", 6), ("BUS", 7),
    ("FPE", 8), ("KILL", 9), ("USR1", 10), ("SEGV", 11), ("USR2", 12), ("PIPE", 13),
    ("ALRM", 14), ("TERM", 15), ("CHLD", 17), ("CONT", 18), ("STOP", 19), ("TSTP", 20),
    ("TTIN", 21), ("TTOU", 22), ("URG", 23), ("XCPU", 24), ("XFSZ", 25), ("VTALRM", 26),
    ("PROF", 27), ("WINCH", 28), ("IO", 29), ("PWR", 30), ("SYS", 31)]

/-- The number of a signal, from its name or its number. -/
def signal? (t : Text) : Option Nat :=
  match Text.numeral? t with
  | some n => some n
  | none =>
    let name := String.ofList t
    (signals.find? fun s => s.1 = name || "SIG" ++ s.1 = name).map Prod.snd

/-- Whether a signal ends a process that has made no provision for it. -/
def isFatal (signal : Nat) : Bool :=
  signal != 0 && !([17, 18, 19, 20, 21, 22, 23, 28].contains signal)

/-- Says what to do on a signal, or at the end of the script, which counts as signal zero. -/
def trap : Utility := fun arguments s =>
  match (match arguments with | ['-', '-'] :: rest => rest | rest => rest) with
  | [] => s.withStatus 0
  | action :: names =>
    (names.foldl (fun s name =>
      match if name = "EXIT".toList then some 0 else signal? name with
      | none => s
      | some signal =>
        let others := s.traps.filter fun t => t.1 ≠ signal
        { s with traps := if action = ['-'] then others else (signal, action) :: others }) s
      ).withStatus 0

/-- Sends a signal to processes. The only one that is there is the script itself. -/
def kill : Utility := fun arguments s =>
  let (signal, targets) := match arguments with
    | ['-', 's'] :: name :: rest => (signal? name, rest)
    | ('-' :: name) :: rest => (signal? name, rest)
    | rest => (some 15, rest)
  let targets := match targets with
    | ['-', '-'] :: rest => rest
    | targets => targets
  match signal with
  | none => s.withStatus 2
  | some signal =>
    if targets.isEmpty then s.withStatus 2
    else if targets.contains (Text.ofNat State.processId) ∨ targets.contains ['0'] then
      match if signal = 9 then none else s.traps.lookup signal with
      | some action => { s with pending := s.pending ++ [action] }.withStatus 0
      | none => if isFatal signal then { s with flow := .killed } else s.withStatus 0
    else (s.complainOf "kill".toList "No such process").withStatus 1

end Utility

/-- A utility that acts on each of its operands. -/
def onOperands (act : List Text → Text → State → State) : Utility := fun arguments =>
  let (options, operands) := Utility.splitOptions arguments
  Utility.forEach (act options) operands

/-- A utility that only has a status. -/
def constantly (status : Nat) : Utility := fun _ s =>
  s.withStatus status

/-- The utility of a name. -/
def utility? (name : Text) : Option Utility :=
  match String.ofList name with
  | ":" => some (constantly 0)
  | "true" => some (constantly 0)
  | "false" => some (constantly 1)
  | "sleep" => some (constantly 0)
  | "wait" => some (constantly 0)
  | "trap" => some Utility.trap
  | "umask" => some (constantly 0)
  | "chmod" => some (constantly 0)
  | "echo" => some Utility.echo
  | "printf" => some Utility.printf
  | "cat" => some Utility.cat
  | "read" => some Utility.read
  | "dirname" => some fun arguments s =>
    (((Utility.splitOptions arguments).2.foldl fun s t => s.print (Utility.dirname t ++ ['\n'])) s
      ).withStatus 0
  | "basename" => some fun arguments s =>
    match (Utility.splitOptions arguments).2 with
    | t :: rest => (s.print (Utility.basename t (rest.headD []) ++ ['\n'])).withStatus 0
    | [] => s.withStatus 1
  | "mkdir" =>
    some (onOperands fun options => Utility.makeDirectory (Utility.hasOption options 'p'))
  | "rmdir" => some (onOperands fun _ => Utility.removeDirectory)
  | "rm" => some (onOperands fun options =>
      Utility.remove (Utility.hasOption options 'r' || Utility.hasOption options 'R')
        (Utility.hasOption options 'f'))
  | "touch" => some (onOperands fun _ => Utility.touch)
  | "cd" => some Utility.changeDirectory
  | "pwd" => some fun _ s => (s.print ((ofRaw (FileTree.pathTo s.here).raw) ++ ['\n'])).withStatus 0
  | "test" => some Utility.test
  | "[" => some Utility.bracket
  | "exit" => some Utility.exit
  | "return" => some Utility.leaveFunction
  | "break" => some (Utility.withCount fun n s => { s.withStatus 0 with flow := .leave (n - 1) })
  | "continue" => some (Utility.withCount fun n s => { s.withStatus 0 with flow := .again (n - 1) })
  | "shift" => some Utility.shift
  | "set" => some Utility.set
  | "export" => some Utility.assignAll
  | "readonly" => some Utility.assignAll
  | "local" => some Utility.assignLocal
  | "unset" => some Utility.unset
  | "kill" => some Utility.kill
  | _ => none

end Typesweep.Shell
