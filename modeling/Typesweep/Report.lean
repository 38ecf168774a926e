import Typesweep.Json.Printer
import Typesweep.Path.Normal
import Typesweep.Schedule

/-!
# Reports

What a run prints: a line when a project starts, a report when it is done, and a summary at the
end. For people these are short lines, coloured if asked; for programs, reports and summary are
one JSON object on a line each, and starts print nothing.

* `ProjectReport.render`, `RunSummary.render`, `renderStart`: the texts.
-/

namespace Typesweep

/-! ## Style -/

/-- How a piece of text stands out. -/
inductive Style
  | green
  | red
  | cyan
  | dimmed
  | boldGreen
  | boldRed
  deriving DecidableEq, Repr

/-- The display codes of a style. -/
def Style.codes : Style → String
  | green => "32"
  | red => "31"
  | cyan => "36"
  | dimmed => "2"
  | boldGreen => "1;32"
  | boldRed => "1;31"

/-- A piece of text in a style, if colours are on. -/
def paint (color : Bool) (style : Style) (t : Text) : Text :=
  if color then "\x1b[".toList ++ style.codes.toList ++ 'm' :: t ++ "\x1b[0m".toList else t

/-- For whom a run prints. -/
inductive OutputMode
  | human (color : Bool)
  | json
  deriving DecidableEq, Repr

/-! ## Project reports -/

/-- A problem as it is shown. -/
structure DiagnosticEntry where
  /-- The file, from the working directory if it lies inside. -/
  file : Text
  line : UInt32
  column : UInt32
  code : Text
  message : Text
  deriving DecidableEq, Repr

/-- A problem as it is shown to a user in `cwd`. -/
def Diagnostic.entry (d : Diagnostic) (cwd : Path) : DiagnosticEntry :=
  ⟨d.file.display cwd, d.line, d.column, d.code, d.message⟩

/-- The report on one project. -/
structure ProjectReport where
  /-- The configuration, from the working directory if it lies inside. -/
  config : Text
  /-- Whether the project is clean. -/
  passed : Bool
  /-- Number of problems. -/
  errorCount : Nat
  /-- The problems on files that the project owns. -/
  diagnostics : List DiagnosticEntry
  deriving DecidableEq, Repr

namespace ProjectReport

/-- The report on a finished task for a user in `cwd`. -/
def ofResult (r : TaskResult) (cwd : Path) : ProjectReport :=
  let diagnostics := r.diagnostics.map fun d => d.entry cwd
  { config := r.project.path.display cwd
    passed := diagnostics.isEmpty
    errorCount := diagnostics.length
    diagnostics := diagnostics }

/-- The line of a problem. -/
def renderEntry (color : Bool) (d : DiagnosticEntry) : Text :=
  "  ".toList ++ d.file ++ ':' :: Text.ofNat d.line.toNat ++ ':' :: Text.ofNat d.column.toNat ++
    " - ".toList ++ paint color .red "error".toList ++ ' ' :: paint color .dimmed d.code ++
    ": ".toList ++ d.message ++ ['\n']

/-- The report for people. -/
def renderHuman (color : Bool) (r : ProjectReport) : Text :=
  let count := Text.ofNat r.errorCount ++ " error(s)".toList
  let head :=
    if r.passed then
      paint color .boldGreen ['✓'] ++ ' ' :: r.config ++ ' ' :: paint color .green count
    else paint color .boldRed ['✗'] ++ ' ' :: r.config ++ ' ' :: paint color .red count
  head ++ '\n' :: r.diagnostics.flatMap (renderEntry color)

/-- A problem as a JSON object. -/
def entryJson (d : DiagnosticEntry) : Json :=
  .object [
    ("file".toList, .string d.file),
    ("line".toList, .number (.natural d.line.toNat)),
    ("column".toList, .number (.natural d.column.toNat)),
    ("code".toList, .string d.code),
    ("message".toList, .string d.message)]

/-- The report as a JSON object. -/
def toJson (r : ProjectReport) : Json :=
  .object [
    ("config".toList, .string r.config),
    ("passed".toList, .bool r.passed),
    ("error_count".toList, .number (.natural r.errorCount)),
    ("diagnostics".toList, .array (r.diagnostics.map entryJson))]

/-- The text of a report. -/
def render (r : ProjectReport) : OutputMode → Text
  | .human color => r.renderHuman color
  | .json => r.toJson.write ++ ['\n']

end ProjectReport

/-! ## Summaries -/

/-- The totals of a run. -/
structure RunSummary where
  /-- Whether every project is clean and every task gave a result. -/
  passed : Bool
  projects : Nat
  errors : Nat
  /-- Number of tasks that gave no result. -/
  failedTasks : Nat
  deriving DecidableEq, Repr

namespace RunSummary

/-- The totals of the outcomes of a run. -/
def ofOutcomes (outcomes : List Outcome) : RunSummary :=
  let results := resultsOf outcomes
  let failures := failuresOf outcomes
  { passed := failures.isEmpty && results.all TaskResult.passed
    projects := results.length + failures.length
    errors := (results.flatMap TaskResult.diagnostics).length
    failedTasks := failures.length }

/-- The totals as a JSON object, its keys in alphabetical order. -/
def toJson (s : RunSummary) : Json :=
  .object [("summary".toList, .object [
    ("errors".toList, .number (.natural s.errors)),
    ("failed_tasks".toList, .number (.natural s.failedTasks)),
    ("passed".toList, .bool s.passed),
    ("projects".toList, .number (.natural s.projects))])]

/-- The text of the totals. -/
def render (s : RunSummary) : OutputMode → Text
  | .human color =>
    let line := Text.ofNat s.projects ++ " project(s), ".toList ++ Text.ofNat s.errors ++
      " error(s), ".toList ++ Text.ofNat s.failedTasks ++ " failed task(s)".toList
    '\n' :: paint color (if s.passed then .boldGreen else .boldRed) line ++ ['\n']
  | .json => s.toJson.write ++ ['\n']

end RunSummary

/-- What is printed when the check of a configuration starts. -/
def renderStart (config cwd : Path) : OutputMode → Text
  | .human color => paint color .cyan ("◌ Using ".toList ++ config.display cwd) ++ ['\n']
  | .json => []

end Typesweep
