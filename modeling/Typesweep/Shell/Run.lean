import Typesweep.Shell.Expansion
import Typesweep.Shell.Utility

/-!
# Running scripts

What commands do to the state of a shell. `step` says it for one command, in terms of what is done
for the commands inside; `exec` is the meaning of a command whose parts, and the functions that they
call, are nested at most so deep. A script that goes beyond that, or beyond so many rounds of a
loop, is ended like one that is killed.

* `exec`: runs a command.
* `Script.run`: runs a script.
-/

namespace Typesweep.Shell

/-! ## Streams -/

namespace State

/-- With an output stream going to a sink. -/
def redirect (s : State) (stream : Nat) (sink : Sink) : State :=
  match stream with
  | 1 => { s with stdout := sink }
  | 2 => { s with stderr := sink }
  | _ => s

/-- Where an output stream goes. -/
def sink (s : State) (stream : Nat) : Sink :=
  match stream with
  | 1 => s.stdout
  | 2 => s.stderr
  | _ => .dropped

/-- With an output stream going to a file, which starts empty unless `keeps`. -/
def redirectTo (s : State) (stream : Nat) (keeps : Bool) (path : Text) : Except AccessError State :=
  if path = nullDevice then .ok (s.redirect stream .dropped)
  else if path = "/dev/stdout".toList then .ok (s.redirect stream s.stdout)
  else if path = "/dev/stderr".toList then .ok (s.redirect stream s.stderr)
  else
    match s.writable path with
    | .error e => .error e
    | .ok (place, present) =>
      let s := if present && keeps then s else s.putFile place []
      .ok (s.redirect stream (.file place))

/-- With redirected streams; none if one of them cannot be, which is complained about. -/
def redirectAll (run : Command → State → State) : List Redirect → State → State × Bool
  | [], s => (s, true)
  | .mk stream direction word :: rest, s =>
    let (t, s) := State.text run word s
    let next := match direction with
      | .input => (s.readFile t).map fun bytes => { s with input := bytes }
      | .output => s.redirectTo stream false t
      | .append => s.redirectTo stream true t
      | .duplicate => .ok (s.redirect stream (s.sink ((Text.numeral? t).getD 0)))
      | .inline => .ok { s with input := toRaw t }
    match next with
    | .ok s => redirectAll run rest s
    | .error e => ((s.complainOf t (Utility.reason e)).withStatus 2, false)

/-- Whether a redirection changes what is read. -/
def readsElsewhere (redirects : List Redirect) : Bool :=
  redirects.any fun
    | .mk _ .input _ => true
    | .mk _ .inline _ => true
    | _ => false

/-- Does something with redirected streams, which are as before afterwards. -/
def withRedirects (run : Command → State → State) (redirects : List Redirect)
    (act : State → State) (s : State) : State :=
  match redirectAll run redirects s with
  | (inner, false) => { inner with input := s.input, stdout := s.stdout, stderr := s.stderr }
  | (inner, true) =>
    let after := act inner
    { after with
      input := if readsElsewhere redirects then s.input else after.input
      stdout := s.stdout
      stderr := s.stderr }

/-! ## Success -/

/-- Does something only to see whether it succeeds. -/
def testing (act : State → State) (s : State) : State :=
  { act { s with tested := true } with tested := s.tested }

/-- After a command: exited, if failures are not tolerated. -/
def checked (s : State) : State :=
  if s.strict && !s.tested && !s.succeeded && s.flow = .next then { s with flow := .exit } else s

/-! ## Control -/

/-- One command after the other. -/
def runAll (run : Command → State → State) : List Command → State → State
  | [], s => s
  | command :: rest, s => (run command s).andThen (runAll run rest)

/-- After a round of a loop, with whether it goes on. -/
def afterRound (s : State) : State × Bool :=
  match s.flow with
  | .next => (s, true)
  | .again 0 => ({ s with flow := .next }, true)
  | .again (outer + 1) => ({ s with flow := .again outer }, false)
  | .leave 0 => ({ s with flow := .next }, false)
  | .leave (outer + 1) => ({ s with flow := .leave outer }, false)
  | _ => (s, false)

/-- The rounds of a loop, at most so many. -/
def runRounds (run : Command → State → State) (untilTrue : Bool) (test body : Command) :
    Nat → State → State
  | 0, s => { s with flow := .killed }
  | rounds + 1, s =>
    (testing (run test) s).andThen fun t =>
      if t.succeeded = untilTrue then { t with status := s.status }
      else
        match afterRound (run body t) with
        | (b, true) => runRounds run untilTrue test body rounds b
        | (b, false) => b

/-- One round of a loop for each word. -/
def runEach (run : Command → State → State) (name : Text) (body : Command) :
    List Text → State → State
  | [], s => s
  | t :: rest, s =>
    match afterRound (run body (s.assign name t)) with
    | (b, true) => runEach run name body rest b
    | (b, false) => b

/-- Whether one of the patterns matches a text. -/
def anyAccepts (run : Command → State → State) (subject : Text) :
    List Word → State → Bool × State
  | [], s => (false, s)
  | word :: rest, s =>
    let (marks, s) := expand run word s
    if (Pattern.ofField (fieldOf marks)).accepts subject then (true, s)
    else anyAccepts run subject rest s

/-- The first case that has a pattern that matches. -/
def runCases (run : Command → State → State) (subject : Text) :
    List (List Word × Command) → State → State
  | [], s => s.withStatus 0
  | (patterns, body) :: rest, s =>
    match anyAccepts run subject patterns s with
    | (true, s) => run body s
    | (false, s) => runCases run subject rest s

/-! ## Programs -/

/-- Whether a word runs a command. -/
def runsCommand (word : Word) : Bool :=
  word.any fun
    | .output _ => true
    | .quoted pieces => pieces.any fun
      | .output _ => true
      | _ => false
    | _ => false

/-- With assignments. -/
def assignWords (run : Command → State → State) : List (Text × Word) → State → State
  | [], s => s
  | (name, word) :: rest, s =>
    let (t, s) := State.text run word s
    assignWords run rest (s.assign name t)

/-- Calls a function. -/
def call (run : Command → State → State) (body : Command) (arguments : List Text) (s : State) :
    State :=
  let inner := run body { s with arguments := arguments, covered := [] }
  let inner := inner.covered.foldl (fun s (name, value) =>
    match value with
    | some value => s.assign name value
    | none => s.unset name) inner
  { inner with
    arguments := s.arguments
    covered := s.covered
    flow := if inner.flow = .back then .next else inner.flow }

/-- Does what signals have asked for. -/
def runPending (run : Command → State → State) (s : State) : State :=
  s.pending.foldl (fun s action =>
    s.andThen fun s =>
      let after := run (Script.read action) s
      if after.flow = .next then { after with status := s.status } else after)
    { s with pending := [] }

/-- At the end of a script: what is to be done then, after which it has exited. -/
def finish (run : Command → State → State) (s : State) : State :=
  match s.flow, s.traps.lookup 0 with
  | .killed, _ => s
  | _, none => s
  | _, some action =>
    let last := run (Script.read action) { s with flow := .next, traps := [] }
    if last.flow = .next then { last with status := s.status } else last

/-- Runs something in a shell of its own. -/
def inSubshell (run : Command → State → State) (act : State → State) (s : State) : State :=
  s.separately fun s => finish run (act { s with traps := [] })

/-- Runs the text of a script in a shell of its own. -/
def runText (run : Command → State → State) (name text : Text) (arguments : List Text)
    (s : State) : State :=
  inSubshell run (fun s =>
    run (Script.read text)
      { s with script := name, arguments := arguments, functions := [], strict := false,
               tested := false }) s

/-- Runs the program at a path. -/
def runFile (run : Command → State → State) (path : Text) (arguments : List Text) (s : State) :
    State :=
  match s.entry? path with
  | some (.file content true) => runText run path (ofRaw content) arguments s
  | some _ => (s.complainOf path "Permission denied").withStatus 126
  | none => (s.complainOf path "not found").withStatus 127

/-- The name of a program that is given by its path in the system. -/
def systemName? (path : Text) : Option Text :=
  ["/bin/", "/usr/bin/"].findSome? fun dir => Text.after? dir.toList path

/-- Runs a program by its name, whatever functions there are. -/
def runProgram (run : Command → State → State) (name : Text) (arguments : List Text)
    (s : State) : State :=
  let name := (systemName? name).getD name
  match String.ofList name, arguments with
  | "eval", _ => run (Script.read (Text.joinWith [' '] arguments)) (s.withStatus 0)
  | ".", path :: _ =>
    match s.readFile path with
    | .ok bytes =>
      let inner := run (Script.read (ofRaw bytes)) s
      if inner.flow = .back then { inner with flow := .next } else inner
    | .error _ => (s.complainOf path "not found").exited 2
  | "sh", ['-', 'c'] :: text :: rest => runText run (rest.headD name) text rest.tail s
  | "sh", path :: rest =>
    match s.readFile path with
    | .ok bytes => runText run path (ofRaw bytes) rest s
    | .error _ => (s.complainOf path "not found").withStatus 127
  | "sh", [] =>
    runText run name (ofRaw s.input) [] { s with input := [] }
  | _, _ =>
    match utility? name with
    | some utility => utility arguments s
    | none =>
      if name.contains '/' then runFile run name arguments s
      else (s.complainOf name "not found").withStatus 127

/-- Runs a function or a program. -/
def dispatch (run : Command → State → State) (name : Text) (arguments : List Text) (s : State) :
    State :=
  match s.functions.lookup name with
  | some body => call run body arguments s
  | none =>
    match String.ofList name, arguments with
    | "command", ['-', 'v'] :: program :: _ =>
      if (utility? program).isSome then (s.print (program ++ ['\n'])).withStatus 0
      else s.withStatus 127
    | "command", program :: rest => runProgram run program rest s
    | "exec", program :: rest =>
      let s := runProgram run program rest s
      if s.flow = .next then { s with flow := .exit } else s
    | _, _ => runProgram run name arguments s

/-- A simple command. -/
def runSimple (run : Command → State → State) (assignments : List (Text × Word))
    (words : List Word) (redirects : List Redirect) (s : State) : State :=
  let (fields, s) := State.words run words s
  s.andThen fun s =>
    match fields with
    | [] =>
      let assigned := assignWords run assignments s
      assigned.andThen fun assigned =>
        let runs := (assignments.any fun a => runsCommand a.2) || words.any runsCommand
        let assigned := if runs then assigned else assigned.withStatus 0
        (withRedirects run redirects id assigned).checked
    | name :: arguments =>
      if name = "exec".toList ∧ arguments.isEmpty then
        let (s, good) := redirectAll run redirects s
        if good then s.withStatus 0 else { s with flow := .exit }
      else
        let inner := assignWords run assignments s
        let after := withRedirects run redirects (dispatch run name arguments) inner
        let after := if assignments.isEmpty then after else { after with bindings := s.bindings }
        (runPending run after).checked

/-! ## Commands -/

/-- A loop with more rounds than this is ended. -/
def maxRounds : Nat := 1000000

/-- What a command does, by what the commands inside of it do. -/
def step (run : Command → State → State) (command : Command) (s : State) : State :=
  match command with
  | .simple assignments words redirects => runSimple run assignments words redirects s
  | .sequence [] => s.withStatus 0
  | .sequence commands => runAll run commands s
  | .andThen first second =>
    (testing (run first) s).andThen fun s => if s.succeeded then run second s else s
  | .orElse first second =>
    (testing (run first) s).andThen fun s => if s.succeeded then s else run second s
  | .negated command => (testing (run command) s).andThen fun s => s.answer !s.succeeded
  | .pipe first second =>
    let writer := run first { s with collected := [], stdout := .collected }
    let reader := run second { s with tree := writer.tree, input := writer.collected.reverse }
    let ended := writer.flow = .killed ∨ reader.flow = .killed
    { s with
      tree := reader.tree
      input := writer.input
      collected := reader.collected
      status := reader.status
      flow := if ended then .killed else s.flow }.checked
  | .branch test yes no =>
    (testing (run test) s).andThen fun s => if s.succeeded then run yes s else run no s
  | .loop untilTrue test body => runRounds run untilTrue test body maxRounds (s.withStatus 0)
  | .each name words body =>
    match words with
    | none => runEach run name body s.arguments (s.withStatus 0)
    | some words =>
      let (fields, s) := State.words run words s
      s.andThen fun s => runEach run name body fields (s.withStatus 0)
  | .choice subject cases =>
    let (t, s) := State.text run subject s
    s.andThen (runCases run t cases)
  | .subshell body => (inSubshell run (run body) s).checked
  | .background body => (inSubshell run (run body) s).withStatus 0
  | .redirected body redirects => withRedirects run redirects (run body) s
  | .define name body => { s with functions := (name, body) :: s.functions }.withStatus 0
  | .malformed => (s.complainOf "syntax error".toList "unexpected text").exited 2

end State

/-- Runs a command whose parts and calls are nested at most so deep. -/
def exec : Nat → Command → State → State
  | 0, _, s => { s with flow := .killed }
  | depth + 1, command, s => State.step (exec depth) command s

/-- A script with commands and calls nested deeper than this is ended. -/
def maxDepth : Nat := 1000

/-- What a script leaves when it has ended. -/
structure Ended where
  /-- Its exit status; none if a signal ended it. -/
  status : Option Nat
  output : List UInt8
  tree : FileTree

/-- Runs a script. -/
def Script.run (script : Text) (start : State) : Ended :=
  let s := State.finish (exec maxDepth) (exec maxDepth (Script.read script) start)
  ⟨if s.flow = .killed then none else some s.status, s.collected.reverse, s.tree⟩

end Typesweep.Shell
