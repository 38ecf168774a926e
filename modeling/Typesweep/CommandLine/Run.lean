import Typesweep.CommandLine.Arguments
import Typesweep.Launch
import Typesweep.Plan
import Typesweep.Settings
import Typesweep.Transcript

/-!
# Running a command line

The whole program: arguments and settings say what to check, the checker is found from the working
directory, a plan is made, the checkers run, and what they report is printed. Nothing is checked
unless all of it can be planned.

* `Surroundings.run`: runs a command line.
-/

namespace Typesweep

/-- What a command line runs in. -/
structure Surroundings where
  tree : FileTree
  cwd : Path
  /-- Number of processors, which is how many checkers run at once if nothing is said. -/
  processors : Nat := 1
  /-- Whether what is printed for people is coloured. -/
  color : Bool := false
  environment : List (Text × Text) := []

/-- What a command line leaves. -/
structure Conclusion where
  /-- The exit code: zero if all is clean, two for a mistake in the arguments, else one. -/
  exitCode : Nat
  stdout : Text
  stderr : Text
  tree : FileTree

/-- Name of the program. -/
def programName : String := "tsc-lint"

/-- What is printed for the version. -/
def versionText : String := programName ++ " 0.1.0\n"

/-- What is printed for help. -/
def helpText : String :=
  "Type-check every tsconfig.json in a source tree\n\n" ++
  "Usage: " ++ programName ++ " [OPTIONS] [DIRS]...\n\n" ++
  "Arguments:\n" ++
  "  [DIRS]...  Directories to search (default: current directory)\n\n" ++
  "Options:\n" ++
  "  -i, --ignore <PATTERN>  Ignore paths matching the given pattern\n" ++
  "  -j, --jobs <N>          Maximum number of checkers at once (default: number of CPUs)\n" ++
  "  -v, --verbose           Enable verbose output\n" ++
  "      --json              Output in JSON format\n" ++
  "  -h, --help              Print help\n" ++
  "  -V, --version           Print version\n"

/-- What a run is about: arguments and settings put together. -/
structure Undertaking where
  options : LintOptions
  jobs : Nat
  mode : OutputMode

namespace Surroundings

/-- The working directory, by the path that leads to it without links. -/
def home (s : Surroundings) : Path :=
  match s.tree.find s.cwd with
  | .ok place => FileTree.pathTo place
  | .error _ => s.cwd

/-- What arguments and settings ask for. Directories of the arguments replace those of the settings,
and patterns add up. -/
def undertaking (s : Surroundings) (a : Arguments) (settings : Settings) : Undertaking :=
  let roots :=
    if !a.dirs.isEmpty then a.dirs
    else if !settings.roots.isEmpty then settings.roots
    else [.ofString "."]
  { options := ⟨s.home, roots, settings.ignore ++ a.ignore⟩
    jobs := max ((a.jobs.or settings.jobs).getD s.processors) 1
    mode := if a.json then .json else .human s.color }

/-- Ended without a result, for a reason. -/
def abandon (s : Surroundings) (reason : String) : Conclusion :=
  ⟨1, [], (programName ++ ": " ++ reason ++ "\n").toList, s.tree⟩

/-- Runs the checkers of a plan and prints what they report. -/
def execute (s : Surroundings) (u : Undertaking) (binary : Path) (plan : Plan) : Conclusion :=
  let cwd := u.options.cwd
  let (runs, tree) := Checker.runAll ⟨binary, cwd⟩ s.environment s.tree plan.projects
  let tasks := runs.map fun (project, run) => (⟨project, run, 1⟩ : Task)
  let run := Run.ofTasks u.jobs cwd plan.owners tasks
  let summary := RunSummary.ofOutcomes run.outcomes
  { exitCode := if summary.passed then 0 else 1
    stdout := run.transcript cwd u.mode ++ summary.render u.mode
    stderr := (failuresOf run.outcomes).flatMap fun f => f.render cwd s.color
    tree }

/-- Checks what arguments ask for. -/
def lint [IgnoreEngine] (s : Surroundings) (a : Arguments) : Conclusion :=
  match Settings.load s.tree s.home with
  | .error e => s.abandon e.account
  | .ok settings =>
    match s.tree.locate? s.home checkerPath with
    | none => s.abandon "tsc binary not found"
    | some binary =>
      let u := s.undertaking a settings
      match Plan.make s.tree u.options with
      | .error e => s.abandon e.account
      | .ok plan => s.execute u binary plan

/-- Runs a command line. -/
def run [IgnoreEngine] (s : Surroundings) (arguments : List Text) : Conclusion :=
  match Arguments.read arguments with
  | .ok a => s.lint a
  | .error .help => ⟨0, helpText.toList, [], s.tree⟩
  | .error .version => ⟨0, versionText.toList, [], s.tree⟩
  | .error (.misuse e) => ⟨2, [], "error: ".toList ++ e.message ++ ['\n'], s.tree⟩

end Surroundings

end Typesweep
