import Typesweep.Diagnostic.Reader
import Typesweep.Ownership

/-!
# Tasks

A task is one run of the checker for one project. A run that exits with zero is clean whatever it
prints. Any other run must print at least one problem, or it is broken; of the problems it prints,
those on files that the project owns are kept.

* `CheckerRun`: what a checker does.
* `interpret`: what a finished run means.
* `check`: the outcome of a task.
-/

namespace Typesweep

/-- What a finished checker process leaves. -/
structure RunOutput where
  /-- The exit code; none if a signal ended the process. -/
  exitCode : Option Int
  stdout : Text
  deriving DecidableEq, Repr

/-- Whether the process exited with zero. -/
def RunOutput.succeeded (run : RunOutput) : Bool :=
  run.exitCode = some 0

/-- Why a task gives no result. -/
inductive TaskError
  | launch (binary : Path) (reason : Text)
  /-- The checker failed without reporting a problem. -/
  | unrecognized (exitCode : Option Int) (output : Text)
  | aborted
  deriving DecidableEq, Repr

/-- How a process ended, in messages. -/
def describeExit : Option Int → String
  | some code => "code " ++ toString code
  | none => "a signal"

/-- The message of a task error. -/
def TaskError.message : TaskError → Text
  | .launch binary reason =>
    "failed to launch ".toList ++ binary.text ++ ": ".toList ++ reason
  | .unrecognized exitCode _ =>
    ("checker exited with " ++ describeExit exitCode ++ " and reported no diagnostics").toList
  | .aborted => "task aborted".toList

/-- What checking one project gave. -/
structure TaskResult where
  project : Project
  output : Text
  exitCode : Option Int
  /-- The problems on files that the project owns. -/
  diagnostics : List Diagnostic
  deriving DecidableEq, Repr

/-- Whether the project is clean. -/
def TaskResult.passed (r : TaskResult) : Bool :=
  r.diagnostics.isEmpty

/-- A task without result. -/
structure TaskFailure where
  project : Project
  error : TaskError
  deriving DecidableEq, Repr

/-- The outcome of a task. -/
abbrev Outcome := Except TaskFailure TaskResult

/-- The project of an outcome. -/
def Outcome.project : Outcome → Project
  | .ok result => result.project
  | .error failure => failure.project

/-- The problems on files that belong to a configuration. -/
def ownedDiagnostics (diagnostics : List Diagnostic) (config : Path) (owners : Ownership) :
    List Diagnostic :=
  diagnostics.filter fun d =>
    match owners.ownerOf? d.file with
    | some owner => decide (owner.Same config)
    | none => false

/-- What a finished run for a project means. -/
def interpret (project : Project) (run : RunOutput) (cwd : Path) (owners : Ownership) :
    Except TaskError TaskResult :=
  if run.succeeded then .ok ⟨project, run.stdout, run.exitCode, []⟩
  else
    match Diagnostic.ofOutput cwd run.stdout with
    | [] => .error (.unrecognized run.exitCode run.stdout)
    | d :: rest =>
      .ok ⟨project, run.stdout, run.exitCode, ownedDiagnostics (d :: rest) project.path owners⟩

/-- What a checker does for a project. -/
inductive CheckerRun
  | ended (run : RunOutput)
  | unlaunched (binary : Path) (reason : Text)
  | broken
  deriving DecidableEq, Repr

/-- The outcome of a task, by what the checker does. -/
def check (cwd : Path) (owners : Ownership) (project : Project) : CheckerRun → Outcome
  | .ended run =>
    match interpret project run cwd owners with
    | .ok result => .ok result
    | .error error => .error ⟨project, error⟩
  | .unlaunched binary reason => .error ⟨project, .launch binary reason⟩
  | .broken => .error ⟨project, .aborted⟩

end Typesweep
