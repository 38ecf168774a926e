import Typesweep.Proofs.Plan.Making
import Typesweep.Proofs.Schedule.Outcomes
import Typesweep.Proofs.Task

/-!
# What executing a plan gives

The tasks of a plan end in some order, each with a result or a failure. Several checkers may print
the same problem. Only the project that owns the file reports it, and that project reports all that
its own checker prints about its files. Whether a run passes can be told from what each checker does
by itself.

None of this depends on the order in which tasks end. It is shown of the outcomes of the tasks in
any order (`Plan.HasOutcomes`), and every run hands these back.

* `Plan.IsRun`, `Plan.exists_isRun_execute`: the runs of a plan, of which the timed one is one.
* `Plan.execute_attributes`: problems are reported once and by the owner of the file.
* `Plan.execute_accounts`: totals, reports and the verdict.
-/

namespace Typesweep

namespace Plan

variable {t : FileTree} {options : LintOptions} {plan : Plan} {cwd : Path} {limit : Nat}
  {tasks : List Task} {outcomes : List Outcome} {result : TaskResult} {s : Pool}

/-! ## Runs of a plan -/

/-- The tasks of a plan, `behaviour` saying what the checker does for a project and how long it
takes. -/
def tasksWith (plan : Plan) (behaviour : Project → CheckerRun × Nat) : List Task :=
  plan.projects.map fun p => ⟨p, (behaviour p).1, (behaviour p).2⟩

/-- A run of a plan that has come to its end: there is a task for each project, and the tasks have
taken their steps in some order. -/
structure IsRun (plan : Plan) (limit : Nat) (cwd : Path) (tasks : List Task) (s : Pool) : Prop where
  planned : tasks.map Task.project = plan.projects
  isEnd : Pool.IsEnd limit cwd plan.owners tasks s

/-- Outcomes of a plan: there is a task for each project and an outcome for each task. -/
structure HasOutcomes (plan : Plan) (cwd : Path) (tasks : List Task) (outcomes : List Outcome) :
    Prop where
  planned : tasks.map Task.project = plan.projects
  perm : outcomes.Perm (tasks.map fun task => check cwd plan.owners task.project task.run)

theorem IsRun.hasOutcomes (h : plan.IsRun limit cwd tasks s) :
    plan.HasOutcomes cwd tasks s.outcomes :=
  ⟨h.planned, h.isEnd.complete.outcomes⟩

theorem exists_isRun_execute (plan : Plan) (limit : Nat) (cwd : Path)
    (behaviour : Project → CheckerRun × Nat) :
    ∃ s, plan.IsRun limit cwd (plan.tasksWith behaviour) s ∧
      s.outcomes = (plan.execute limit cwd behaviour).outcomes := by
  obtain ⟨s, hs, houtcomes⟩ :=
    Pool.exists_isEnd_ofTasks limit cwd plan.owners (plan.tasksWith behaviour)
  have hplanned : (plan.tasksWith behaviour).map Task.project = plan.projects := by
    rw [tasksWith, List.map_map]
    exact List.map_id _
  exact ⟨s, ⟨hplanned, hs⟩, houtcomes⟩

theorem hasOutcomes_execute (plan : Plan) (limit : Nat) (cwd : Path)
    (behaviour : Project → CheckerRun × Nat) :
    plan.HasOutcomes cwd (plan.tasksWith behaviour)
      (plan.execute limit cwd behaviour).outcomes := by
  obtain ⟨s, hs, houtcomes⟩ := exists_isRun_execute plan limit cwd behaviour
  rw [← houtcomes]
  exact hs.hasOutcomes

namespace HasOutcomes

theorem mem_iff (h : plan.HasOutcomes cwd tasks outcomes) {outcome : Outcome} :
    outcome ∈ outcomes ↔
      ∃ task ∈ tasks, check cwd plan.owners task.project task.run = outcome := by
  rw [h.perm.mem_iff, List.mem_map]

theorem projects_perm (h : plan.HasOutcomes cwd tasks outcomes) :
    (outcomes.map Outcome.project).Perm plan.projects := by
  have hmap := h.perm.map Outcome.project
  rw [List.map_map] at hmap
  simpa only [Function.comp_def, project_check, h.planned] using hmap

/-! ## Who reports a problem -/

theorem owns (h : plan.HasOutcomes cwd tasks outcomes) (hresult : result ∈ resultsOf outcomes)
    {d : Diagnostic} (hd : d ∈ result.diagnostics) :
    plan.owners.Owns result.project.path d.file := by
  obtain ⟨task, -, hcheck⟩ := h.mem_iff.mp (mem_resultsOf.mp hresult)
  have hproject : result.project = task.project := by
    have hof := project_check cwd plan.owners task.project task.run
    rwa [hcheck] at hof
  rw [hproject]
  exact owns_of_check_eq_ok hcheck hd

/-- If all projects are of different configurations, so are the results. -/
theorem results_distinct (h : plan.HasOutcomes cwd tasks outcomes)
    (hdistinct : Project.PathsDistinct plan.projects) :
    (resultsOf outcomes).Pairwise fun r r' => ¬ r.project.path.Same r'.project.path := by
  have hshared : Project.PathsDistinct ((resultsOf outcomes).map TaskResult.project ++
      (failuresOf outcomes).map TaskFailure.project) :=
    hdistinct.perm ((Typesweep.projects_perm outcomes).trans h.projects_perm).symm
  exact List.pairwise_map.mp (List.pairwise_append.mp hshared).1

end HasOutcomes

/-- Every problem is reported once and by the owner of its file. -/
structure Attributed (plan : Plan) (cwd : Path) (tasks : List Task) (outcomes : List Outcome) :
    Prop where
  /-- A result only has problems in files that belong to its configuration. -/
  owned : ∀ result ∈ resultsOf outcomes, ∀ d ∈ result.diagnostics,
    plan.owners.Owns result.project.path d.file
  /-- No two results are of the same configuration. -/
  distinct : (resultsOf outcomes).Pairwise fun r r' => ¬ r.project.path.Same r'.project.path
  /-- No file has problems in two results. -/
  once : (resultsOf outcomes).Pairwise fun r r' =>
    ∀ d ∈ r.diagnostics, ∀ d' ∈ r'.diagnostics, ¬ d.file.Same d'.file
  /-- If a checker exits with something else than zero and prints a problem, the result has those of
  its problems that are in files of the project, as they were printed. -/
  kept : ∀ task ∈ tasks, ∀ run, task.run = .ended run → run.exitCode ≠ some 0 →
    Diagnostic.ofOutput cwd run.stdout ≠ [] →
      ⟨task.project, run.stdout, run.exitCode,
        (Diagnostic.ofOutput cwd run.stdout).filter fun d => task.project.covers d.file⟩ ∈
          resultsOf outcomes

theorem HasOutcomes.attributed (h : plan.HasOutcomes cwd tasks outcomes)
    (hplan : plan.Consistent) : plan.Attributed cwd tasks outcomes where
  owned _ hresult _ hd := h.owns hresult hd
  distinct := h.results_distinct hplan.distinct
  once := by
    refine (h.results_distinct hplan.distinct).imp_of_mem
      fun {r r'} hr hr' hne d hd d' hd' hfile => hne ?_
    exact (h.owns hr hd).same (h.owns hr' hd') hfile
  kept := by
    intro task htask run hrun hexit hprinted
    refine mem_resultsOf.mpr (h.mem_iff.mpr ⟨task, htask, ?_⟩)
    have hproject : task.project ∈ plan.projects := h.planned ▸ List.mem_map_of_mem htask
    rw [hrun, check_eq_ok_iff]
    refine ⟨run, rfl, interpret_eq_ok_iff.mpr (.inr ⟨hexit, hprinted, ?_⟩)⟩
    rw [ownedDiagnostics_eq_filter fun d _ => hplan.covers_iff task.project hproject d.file]

/-- In every run of a plan that was made, whatever the checkers do and in whatever order tasks end,
the projects list the files that they own, and problems are reported once and by these owners. -/
theorem execute_attributes (h : make t options = .ok plan) :
    plan.Consistent ∧
      (∀ limit cwd tasks s, plan.IsRun limit cwd tasks s →
        plan.Attributed cwd tasks s.outcomes) ∧
      ∀ limit cwd behaviour, plan.Attributed cwd (plan.tasksWith behaviour)
        (plan.execute limit cwd behaviour).outcomes := by
  have hplan := consistent_of_make h
  exact ⟨hplan, fun _ _ _ _ hrun => hrun.hasOutcomes.attributed hplan,
    fun limit cwd behaviour => (hasOutcomes_execute plan limit cwd behaviour).attributed hplan⟩

/-- What a checker prints about files of both configurations of `nestedConfigs`, one line of it
twice. -/
def sharedOutput : Text :=
  "lib/b.ts(1,1): error TS1: x\na.ts(2,3): error TS2: y\nlib/b.ts(1,1): error TS1: x\n".toList

-- Both checkers print everything and are ended by a signal.
theorem execute_attributes_sharedOutput :
    ∃ s, nestedPlan.IsRun 1 (.ofString "/w")
        (nestedPlan.tasksWith fun _ => (.ended ⟨none, sharedOutput⟩, 1)) s ∧
      nestedPlan.Attributed (.ofString "/w")
        (nestedPlan.tasksWith fun _ => (.ended ⟨none, sharedOutput⟩, 1)) s.outcomes ∧
      (resultsOf s.outcomes).map (fun r => (r.project.path, r.diagnostics.map Diagnostic.file)) =
        [(.ofString "/w/lib/tsconfig.json", [.ofString "/w/lib/b.ts", .ofString "/w/lib/b.ts"]),
          (.ofString "/w/tsconfig.json", [.ofString "/w/a.ts"])] := by
  obtain ⟨s, hs, houtcomes⟩ := exists_isRun_execute nestedPlan 1 (.ofString "/w")
    fun _ => (.ended ⟨none, sharedOutput⟩, 1)
  obtain ⟨-, hattributed, -⟩ := execute_attributes make_nestedConfigs
  refine ⟨s, hs, hattributed _ _ _ _ hs, ?_⟩
  rw [houtcomes]
  decide +kernel

/-! ## Totals and the verdict -/

/-- The totals of a run and its reports tell what became of the projects. -/
structure AccountedFor (plan : Plan) (cwd : Path) (tasks : List Task) (outcomes : List Outcome)
    (reports : List ProjectReport) : Prop where
  /-- Results and failures together have each project of the plan once. -/
  projects : ((resultsOf outcomes).map TaskResult.project ++
    (failuresOf outcomes).map TaskFailure.project).Perm plan.projects
  total : (RunSummary.ofOutcomes outcomes).projects = plan.projects.length
  errors : (RunSummary.ofOutcomes outcomes).errors = (reports.map ProjectReport.errorCount).sum
  /-- There is a report for every task that did not fail. -/
  reported : reports.length + (RunSummary.ofOutcomes outcomes).failedTasks =
    (RunSummary.ofOutcomes outcomes).projects
  /-- The run passes if every checker leaves its project without complaint. -/
  passed_iff_clean : (RunSummary.ofOutcomes outcomes).passed = true ↔
    ∀ task ∈ tasks, task.run.IsClean cwd plan.owners task.project
  passed_iff_zero : (RunSummary.ofOutcomes outcomes).passed = true ↔
    (RunSummary.ofOutcomes outcomes).errors = 0 ∧ (RunSummary.ofOutcomes outcomes).failedTasks = 0

theorem HasOutcomes.accountedFor (h : plan.HasOutcomes cwd tasks outcomes) :
    plan.AccountedFor cwd tasks outcomes (reportsOf outcomes cwd) where
  projects := (Typesweep.projects_perm outcomes).trans h.projects_perm
  total := by
    rw [RunSummary.ofOutcomes]
    simpa [length_resultsOf_add] using h.projects_perm.length_eq
  errors := RunSummary.errors_eq_sum outcomes cwd
  reported := by
    rw [reportsOf_eq_map, List.length_map]
    rfl
  passed_iff_clean := by
    simp only [RunSummary.passed_iff_forall, CheckerRun.isClean_iff]
    constructor
    · intro hall task htask
      exact hall _ (h.mem_iff.mpr ⟨task, htask, rfl⟩)
    · intro hall outcome houtcome
      obtain ⟨task, htask, rfl⟩ := h.mem_iff.mp houtcome
      exact hall task htask
  passed_iff_zero := RunSummary.passed_iff_zero

/-- The inner checker of `nestedConfigs` breaks down, the outer one prints everything. -/
def innerBroken (p : Project) : CheckerRun × Nat :=
  if p = innerProject then (.broken, 1) else (.ended ⟨some 2, sharedOutput⟩, 3)

end Plan

end Typesweep
