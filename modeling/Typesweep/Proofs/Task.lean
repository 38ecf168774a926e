import Typesweep.Proofs.Ownership
import Typesweep.Task

/-!
# What checking a project gives

A checker that is launched and comes to its end gives a result in two cases: it exits with zero, or
it exits otherwise and prints a problem. All else gives a failure. A project is clean when the
result names none of its own files.

* `ownedDiagnostics_eq_filter`: the problems that are kept.
* `interpret_eq_ok_iff`, `check_eq_ok_iff`: when there is a result, and which one.
* `CheckerRun.isClean_iff`: the runs whose result is clean.
-/

namespace Typesweep

variable {cwd config : Path} {owners : Ownership} {project : Project}
  {diagnostics : List Diagnostic} {result : TaskResult}

/-! ## The problems that are kept -/

theorem ownedDiagnostics_eq_filter {keep : Diagnostic → Bool}
    (h : ∀ d ∈ diagnostics, keep d = true ↔ owners.Owns config d.file) :
    ownedDiagnostics diagnostics config owners = diagnostics.filter keep := by
  refine List.filter_congr fun d hd => Bool.eq_iff_iff.mpr ?_
  rw [h d hd, Ownership.Owns]
  cases owners.ownerOf? d.file <;> simp

theorem mem_ownedDiagnostics {d : Diagnostic} :
    d ∈ ownedDiagnostics diagnostics config owners ↔
      d ∈ diagnostics ∧ owners.Owns config d.file := by
  rw [ownedDiagnostics, List.mem_filter, Ownership.Owns]
  cases owners.ownerOf? d.file <;> simp

/-! ## Results -/

/-- A run that has ended gives a result when it exits with zero or prints a problem. -/
theorem interpret_eq_ok_iff {run : RunOutput} :
    interpret project run cwd owners = .ok result ↔
      run.exitCode = some 0 ∧ result = ⟨project, run.stdout, run.exitCode, []⟩ ∨
      run.exitCode ≠ some 0 ∧ Diagnostic.ofOutput cwd run.stdout ≠ [] ∧
        result = ⟨project, run.stdout, run.exitCode,
          ownedDiagnostics (Diagnostic.ofOutput cwd run.stdout) project.path owners⟩ := by
  rw [interpret, RunOutput.succeeded]
  by_cases hexit : run.exitCode = some 0
  · rw [if_pos (decide_eq_true hexit)]
    simp only [hexit, Except.ok.injEq, eq_comm, true_and, ne_eq, not_true, false_and, or_false]
  · rw [if_neg (by simpa using hexit)]
    cases Diagnostic.ofOutput cwd run.stdout with
    | nil => simp [hexit]
    | cons d rest =>
      simp only [hexit, false_and, false_or, ne_eq, not_false_eq_true, reduceCtorEq, true_and,
        Except.ok.injEq]
      exact eq_comm

/-- Only a checker that ends gives a result. -/
theorem check_eq_ok_iff {run : CheckerRun} :
    check cwd owners project run = .ok result ↔
      ∃ output, run = .ended output ∧ interpret project output cwd owners = .ok result := by
  cases run with
  | ended output =>
    simp only [check, CheckerRun.ended.injEq, exists_eq_left']
    cases interpret project output cwd owners <;> simp
  | unlaunched binary reason => simp [check]
  | broken => simp [check]

theorem owns_of_check_eq_ok {run : CheckerRun} (h : check cwd owners project run = .ok result)
    {d : Diagnostic} (hd : d ∈ result.diagnostics) : owners.Owns project.path d.file := by
  obtain ⟨output, -, h⟩ := check_eq_ok_iff.mp h
  rcases interpret_eq_ok_iff.mp h with ⟨-, rfl⟩ | ⟨-, -, rfl⟩
  · exact absurd hd List.not_mem_nil
  · exact (mem_ownedDiagnostics.mp hd).2

/-! ## Clean projects -/

/-- Whether a checker leaves a project without complaint: it is launched, does not break down, and
either exits with zero, or exits otherwise having printed problems of which none is in a file of the
project. -/
def CheckerRun.IsClean (cwd : Path) (owners : Ownership) (project : Project) (run : CheckerRun) :
    Prop :=
  ∃ output, run = .ended output ∧
    (output.exitCode = some 0 ∨
      output.exitCode ≠ some 0 ∧ Diagnostic.ofOutput cwd output.stdout ≠ [] ∧
        ∀ d ∈ Diagnostic.ofOutput cwd output.stdout, ¬ owners.Owns project.path d.file)

theorem CheckerRun.isClean_iff {run : CheckerRun} :
    run.IsClean cwd owners project ↔
      ∃ result, check cwd owners project run = .ok result ∧ result.passed = true := by
  have hnone : ∀ ds : List Diagnostic, (ownedDiagnostics ds project.path owners).isEmpty = true ↔
      ∀ d ∈ ds, ¬ owners.Owns project.path d.file := by
    intro ds
    rw [List.isEmpty_iff, List.eq_nil_iff_forall_not_mem]
    simp only [mem_ownedDiagnostics, not_and]
  simp only [check_eq_ok_iff, interpret_eq_ok_iff, TaskResult.passed]
  constructor
  · rintro ⟨output, rfl, hexit | ⟨hexit, hprinted, hforeign⟩⟩
    · exact ⟨_, ⟨output, rfl, .inl ⟨hexit, rfl⟩⟩, rfl⟩
    · exact ⟨_, ⟨output, rfl, .inr ⟨hexit, hprinted, rfl⟩⟩, (hnone _).mpr hforeign⟩
  · rintro ⟨_, ⟨output, rfl, ⟨hexit, rfl⟩ | ⟨hexit, hprinted, rfl⟩⟩, hpassed⟩
    · exact ⟨output, rfl, .inl hexit⟩
    · exact ⟨output, rfl, .inr ⟨hexit, hprinted, (hnone _).mp hpassed⟩⟩

end Typesweep
