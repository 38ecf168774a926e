import Typesweep.Report

/-!
# Transcripts

What a run prints while it goes on: a line for each task that starts, and a report for each one that
ends with a result. What failures are about is only told at the end.

* `Run.startLines`, `Run.reportBlocks`: these two by themselves.
* `Run.transcript`: both, in the order of time.
-/

namespace Typesweep

/-- What is printed when a task ends: a report, if there is a result. -/
def reportOf? (outcome : Outcome) (cwd : Path) (mode : OutputMode) : Option Text :=
  match outcome with
  | .ok result => some ((ProjectReport.ofResult result cwd).render mode)
  | .error _ => none

namespace Run

/-- The lines printed for starts, each with its time. -/
def timedStarts (r : Run) (cwd : Path) (mode : OutputMode) : List (Text × Nat) :=
  r.starts.map fun (project, time) => (renderStart project.path cwd mode, time)

/-- The reports printed for ends, each with its time. -/
def timedReports (r : Run) (cwd : Path) (mode : OutputMode) : List (Text × Nat) :=
  r.ends.filterMap fun (outcome, time) => (reportOf? outcome cwd mode).map fun t => (t, time)

/-- The lines printed for starts, without those that print nothing. -/
def startLines (r : Run) (cwd : Path) (mode : OutputMode) : List Text :=
  ((r.timedStarts cwd mode).map Prod.fst).filter (· ≠ [])

/-- The reports printed for ends. -/
def reportBlocks (r : Run) (cwd : Path) (mode : OutputMode) : List Text :=
  (r.timedReports cwd mode).map Prod.fst

/-- All that is printed while the run goes on. A report comes before the starts that it makes room
for. -/
def transcript (r : Run) (cwd : Path) (mode : OutputMode) : Text :=
  let printed := r.timedReports cwd mode ++ r.timedStarts cwd mode
  (Order.sort (fun a b => compare a.2 b.2) printed).flatMap Prod.fst

end Run

/-- What is told about a failure: its cause, and what a checker that was not understood printed. -/
def TaskFailure.render (f : TaskFailure) (cwd : Path) (color : Bool) : Text :=
  let head := paint color .boldRed ['✗'] ++ ' ' :: f.project.path.display cwd ++ ": ".toList ++
    f.error.message ++ ['\n']
  match f.error with
  | .unrecognized _ output =>
    match Text.trimEnd Text.isBlank output with
    | [] => head
    | told => head ++ told ++ ['\n']
  | _ => head

end Typesweep
