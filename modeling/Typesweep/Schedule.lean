import Typesweep.Order
import Typesweep.Task

/-!
# Schedules

The tasks of a run start in the given order, at most `limit` at a time; a task that finds no free
slot waits until the first of the running ones ends. A limit of zero counts as one. Outcomes are
handed back in the order in which tasks end.

* `timetable`: when tasks of given durations start and end.
* `Run.ofTasks`: a run of tasks with their outcomes.
-/

namespace Typesweep

/-- The time that a task takes. -/
structure Span where
  start : Nat
  finish : Nat
  deriving DecidableEq, Repr

/-- Number of tasks that may run at once. -/
def slotsOf (limit : Nat) : Nat :=
  max limit 1

/-- The spans of tasks of the given durations. `busy` are the ends of the tasks that hold a slot, in
ascending order. -/
def timetableFrom (slots : Nat) : List Nat → List Nat → List Span
  | _, [] => []
  | busy, duration :: durations =>
    let (start, others) :=
      if busy.length < slots then (0, busy) else (busy.headD 0, busy.tail)
    let finish := start + duration
    ⟨start, finish⟩ :: timetableFrom slots (Order.insert compare finish others) durations

/-- The spans of tasks of the given durations, in their order. -/
def timetable (limit : Nat) (durations : List Nat) : List Span :=
  timetableFrom (slotsOf limit) [] durations

/-- Number of tasks that run at a time. A task runs from its start until just before its end. -/
def runningAt (spans : List Span) (time : Nat) : Nat :=
  spans.countP fun s => s.start ≤ time && time < s.finish

/-- Largest number of tasks that run at once. -/
def peakOf (spans : List Span) : Nat :=
  (spans.map fun s => runningAt spans s.start).foldl max 0

/-- A task: its project, what its checker does, and how long that takes. -/
structure Task where
  project : Project
  run : CheckerRun
  duration : Nat

/-- What happened in a run. -/
structure Run where
  /-- The projects in the order of their starts, each with the time. -/
  starts : List (Project × Nat)
  /-- The outcomes in the order of their ends, each with the time. -/
  ends : List (Outcome × Nat)
  /-- Largest number of tasks that ran at once. -/
  peak : Nat

namespace Run

/-- The run of some tasks. -/
def ofTasks (limit : Nat) (cwd : Path) (owners : Ownership) (tasks : List Task) : Run :=
  let spans := timetable limit (tasks.map Task.duration)
  let timed := tasks.zip spans
  let ended := Order.sort (fun a b => compare a.2.finish b.2.finish) timed
  { starts := timed.map fun (task, span) => (task.project, span.start)
    ends := ended.map fun (task, span) => (check cwd owners task.project task.run, span.finish)
    peak := peakOf spans }

/-- The outcomes, in the order of their ends. -/
def outcomes (r : Run) : List Outcome :=
  r.ends.map Prod.fst

end Run

/-- The results of the tasks that gave one. -/
def resultsOf (outcomes : List Outcome) : List TaskResult :=
  outcomes.filterMap fun
    | .ok result => some result
    | .error _ => none

/-- The failures of the tasks that gave no result. -/
def failuresOf (outcomes : List Outcome) : List TaskFailure :=
  outcomes.filterMap fun
    | .ok _ => none
    | .error failure => some failure

end Typesweep
