import Typesweep.Config.Members
import Typesweep.Discovery
import Typesweep.Ownership
import Typesweep.Report

/-!
# Plans

A plan is what a run will check: the projects with the files that each of them owns. It is made
before any checker starts, and the first configuration that cannot be used ends it.
-/

namespace Typesweep

/-- What to check. -/
structure LintOptions where
  cwd : Path
  roots : List Path
  /-- Patterns to ignore besides those of rule files. -/
  ignore : List Text

/-- Why no plan can be made. -/
inductive PlanError
  | ignore (error : IgnoreError)
  | discovery (error : DiscoveryError)
  | config (error : ConfigError)
  deriving DecidableEq, Repr

/-- The full account of the error: its message and then those of its causes. -/
def PlanError.account : PlanError → String
  | .ignore error =>
    String.intercalate ": " ("failed to load ignore rules" :: error.message :: error.causes)
  | .discovery error => error.message
  | .config error => String.intercalate ": " (error.message :: error.causes)

/-- What a run will check. -/
structure Plan where
  /-- The projects with the files that they own, in claiming order. -/
  projects : List Project
  owners : Ownership
  /-- Number of configurations found, also those that cover no files. -/
  discovered : Nat

namespace Plan

/-- The projects of configurations, without those that cover no files. -/
def resolveAll (t : FileTree) : List Path → Except ConfigError (List Project)
  | [] => .ok []
  | path :: paths =>
    match t.resolveProject path with
    | .error e => .error e
    | .ok project? => (resolveAll t paths).map fun rest => project?.toList ++ rest

/-- Makes the plan of a run. -/
def make [IgnoreEngine] (t : FileTree) (options : LintOptions) : Except PlanError Plan :=
  match IgnoreResolver.build t options.cwd options.roots options.ignore with
  | .error e => .error (.ignore e)
  | .ok ignore =>
    match t.discover options.cwd ignore options.roots with
    | .error e => .error (.discovery e)
    | .ok found =>
      let configs := Path.sortedDistinct found
      match resolveAll t configs with
      | .error e => .error (.config e)
      | .ok resolved =>
        let (projects, owners) := deduplicate resolved
        .ok ⟨projects, owners, configs.length⟩

/-- Runs the tasks of a plan, `behaviour` saying what the checker does for a project and how long it
takes. -/
def execute (plan : Plan) (limit : Nat) (cwd : Path) (behaviour : Project → CheckerRun × Nat) :
    Run :=
  Run.ofTasks limit cwd plan.owners
    (plan.projects.map fun p => ⟨p, (behaviour p).1, (behaviour p).2⟩)

end Plan

end Typesweep
