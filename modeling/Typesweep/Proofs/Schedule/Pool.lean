import Mathlib.Data.Fintype.EquivFin
import Mathlib.Data.List.Perm.Basic
import Typesweep.Schedule

/-!
# Pools of tasks

The tasks of a run in any order that they can take. One coordinator spawns them and then collects
what they hand back; in between, a task waits for one of the permits, starts, runs its checker and
ends, and none of these steps waits for those of other tasks except for a permit.

* `Pool.Step`: the steps of a pool. What is taken for granted of the runtime stands in them: a task
  gets an id that no task of the pool has, its permit is free again when it ends, in whatever way,
  and tasks are handed back once each, in the order in which they end.
* `Pool.Inv`, `Pool.Inv.step`: what links the queues, the permits, the table of ids, the history and
  the outcomes, and that every step keeps it.
* `Pool.Accounted`, `Pool.Reachable.accounted`: what follows for every state that a run can reach.
-/

namespace Typesweep

/-! ## Outcomes -/

theorem project_of_interpret {project : Project} {run : RunOutput} {cwd : Path}
    {owners : Ownership} {result : TaskResult}
    (h : interpret project run cwd owners = .ok result) : result.project = project := by
  unfold interpret at h
  split at h
  · cases h
    rfl
  · split at h
    · cases h
    · cases h
      rfl

/-- The outcome of a task is one of its project. -/
theorem project_check (cwd : Path) (owners : Ownership) (project : Project) (run : CheckerRun) :
    (check cwd owners project run).project = project := by
  cases run with
  | ended run =>
    rw [check]
    cases h : interpret project run cwd owners with
    | ok result => exact project_of_interpret h
    | error error => rfl
  | unlaunched binary reason => rfl
  | broken => rfl

/-! ## The states of a pool -/

/-- A spawned task, with the id that it got. -/
structure Job where
  id : Nat
  task : Task

/-- Something that happens while a pool runs. -/
inductive Event
  /-- It is told that a project starts. -/
  | started (id : Nat) (project : Project)
  /-- A task ends and gives its permit back. -/
  | ended (id : Nat)
  /-- It is told what came of a task. -/
  | told (id : Nat) (outcome : Outcome)

namespace Event

/-- The id and the project of a start. -/
def started? : Event → Option (Nat × Project)
  | .started id project => some (id, project)
  | _ => none

/-- The id of an end. -/
def ended? : Event → Option Nat
  | .ended id => some id
  | _ => none

/-- The id and the outcome that were told. -/
def told? : Event → Option (Nat × Outcome)
  | .told id outcome => some (id, outcome)
  | _ => none

end Event

/-- What a task hands back when it ends; nothing if it breaks down. -/
def Task.handBack (cwd : Path) (owners : Ownership) (t : Task) : Option Outcome :=
  match t.run with
  | .broken => none
  | run => some (check cwd owners t.project run)

/-- A pool of tasks and what its coordinator knows. -/
structure Pool where
  /-- The tasks that are still to be spawned, in order. -/
  unspawned : List Task
  /-- The spawned tasks that have no permit yet. -/
  waiting : List Job
  /-- The tasks whose checkers run. -/
  running : List Job
  /-- The ids of the tasks that have ended but are not collected, with what they hand back, in the
  order in which they ended. -/
  ended : List (Nat × Option Outcome)
  /-- Number of free permits. -/
  permits : Nat
  /-- The projects of the ids that are not collected. -/
  pending : Nat → Option Project
  /-- The outcomes so far. -/
  outcomes : List Outcome
  /-- Number of tasks that ended without an outcome or a project. -/
  lost : Nat
  /-- What has happened so far. -/
  history : List Event

namespace Pool

/-- The pool before anything happens. -/
def initial (limit : Nat) (tasks : List Task) : Pool :=
  { unspawned := tasks
    waiting := []
    running := []
    ended := []
    permits := slotsOf limit
    pending := fun _ => none
    outcomes := []
    lost := 0
    history := [] }

/-- Whether an id is that of a task in the pool. -/
def Live (s : Pool) (id : Nat) : Prop :=
  id ∈ s.waiting.map Job.id ∨ id ∈ s.running.map Job.id ∨ id ∈ s.ended.map Prod.fst

/-- Whether all tasks are spawned and collected. -/
def Finished (s : Pool) : Prop :=
  s.unspawned = [] ∧ s.waiting = [] ∧ s.running = [] ∧ s.ended = []

/-- Number of steps that are still to come: four for each task. -/
def stepsLeft (s : Pool) : Nat :=
  4 * s.unspawned.length + 3 * s.waiting.length + 2 * s.running.length + s.ended.length

/-! ## The steps of a pool -/

/-- Spawns a task and notes its project. -/
def spawn (s : Pool) (id : Nat) (task : Task) (rest : List Task) : Pool :=
  { s with
    unspawned := rest
    waiting := s.waiting ++ [⟨id, task⟩]
    pending := fun i => if i = id then some task.project else s.pending i }

/-- A task gets a permit, and its start is told. -/
def start (s : Pool) (job : Job) (others : List Job) : Pool :=
  { s with
    waiting := others
    running := s.running ++ [job]
    permits := s.permits - 1
    history := s.history ++ [.started job.id job.task.project] }

/-- A task ends, and its permit is free again. -/
def finish (s : Pool) (cwd : Path) (owners : Ownership) (job : Job) (others : List Job) : Pool :=
  { s with
    running := others
    ended := s.ended ++ [(job.id, job.task.handBack cwd owners)]
    permits := s.permits + 1
    history := s.history ++ [.ended job.id] }

/-- An outcome is told and kept. -/
def tell (s : Pool) (id : Nat) (outcome : Outcome) : Pool :=
  { s with
    outcomes := s.outcomes ++ [outcome]
    history := s.history ++ [.told id outcome] }

/-- The coordinator collects a task. One that broke down is told by the project that was noted for
its id; without that it is lost track of. -/
def collect (s : Pool) (id : Nat) (handed : Option Outcome) (rest : List (Nat × Option Outcome)) :
    Pool :=
  let left : Pool :=
    { s with ended := rest, pending := fun i => if i = id then none else s.pending i }
  match handed, s.pending id with
  | some outcome, _ => left.tell id outcome
  | none, some project => left.tell id (.error ⟨project, .aborted⟩)
  | none, none => { left with lost := s.lost + 1 }

/-- A kind of step, with the id of the task that takes it. -/
inductive Action
  | spawn
  | start (id : Nat)
  | finish (id : Nat)
  | collect
  deriving DecidableEq

/-- The steps of a pool. The coordinator only collects when it has spawned all tasks. -/
inductive Step (cwd : Path) (owners : Ownership) : Pool → Action → Pool → Prop
  | spawn {s : Pool} {id : Nat} {task : Task} {rest : List Task} :
      s.unspawned = task :: rest → ¬ s.Live id → Step cwd owners s .spawn (s.spawn id task rest)
  | start {s : Pool} {job : Job} {before after : List Job} :
      s.waiting = before ++ job :: after → 0 < s.permits →
      Step cwd owners s (.start job.id) (s.start job (before ++ after))
  | finish {s : Pool} {job : Job} {before after : List Job} :
      s.running = before ++ job :: after →
      Step cwd owners s (.finish job.id) (s.finish cwd owners job (before ++ after))
  | collect {s : Pool} {id : Nat} {handed : Option Outcome} {rest : List (Nat × Option Outcome)} :
      s.unspawned = [] → s.ended = (id, handed) :: rest →
      Step cwd owners s .collect (s.collect id handed rest)

/-- The states that a run of the tasks can reach. -/
inductive Reachable (limit : Nat) (cwd : Path) (owners : Ownership) (tasks : List Task) :
    Pool → Prop
  | initial : Reachable limit cwd owners tasks (initial limit tasks)
  | step {s s' : Pool} {a : Action} :
      Reachable limit cwd owners tasks s → Step cwd owners s a s' →
      Reachable limit cwd owners tasks s'

/-! ## The invariant -/

/-- The outcome that a job must have in the end. -/
def outcomeOf (cwd : Path) (owners : Ownership) (job : Job) : Outcome :=
  check cwd owners job.task.project job.task.run

/-- The jobs of a pool, `ended` being those that have ended and `joined` those that are
collected. -/
def jobs (s : Pool) (ended joined : List Job) : List Job :=
  s.waiting ++ s.running ++ ended ++ joined

/-- What holds between the parts of a pool, where `ended` are the jobs that have ended but are not
collected and `joined` those that are, both in order. -/
structure Inv (limit : Nat) (cwd : Path) (owners : Ownership) (tasks : List Task) (s : Pool)
    (ended joined : List Job) : Prop where
  permits : s.running.length + s.permits = slotsOf limit
  ended_eq : s.ended = ended.map fun j => (j.id, j.task.handBack cwd owners)
  tasks_perm : ((s.jobs ended joined).map Job.task ++ s.unspawned).Perm tasks
  ids_distinct : ((s.jobs ended joined).map Job.id).Nodup
  spawned_first : s.unspawned ≠ [] → joined = []
  pending : ∀ j ∈ s.waiting ++ s.running ++ ended, s.pending j.id = some j.task.project
  lost : s.lost = 0
  outcomes_eq : s.outcomes = joined.map (outcomeOf cwd owners)
  told : s.history.filterMap Event.told? = joined.map fun j => (j.id, outcomeOf cwd owners j)
  ends : s.history.filterMap Event.ended? = (joined ++ ended).map Job.id
  starts : (s.history.filterMap Event.started?).Perm
    ((s.running ++ ended ++ joined).map fun j => (j.id, j.task.project))
  started_before : ∀ pre post id outcome, s.history = pre ++ .told id outcome :: post →
    .started id outcome.project ∈ pre

/-- Moving an element further back is a permutation. -/
theorem perm_move_back {α : Type} (u v w x y : List α) (a : α) :
    (u ++ (v ++ (w ++ (x ++ a :: y)))).Perm (u ++ (v ++ a :: (w ++ (x ++ y)))) := by
  refine List.Perm.append_left u (List.Perm.append_left v ?_)
  rw [← List.append_assoc, ← List.append_assoc]
  exact List.perm_middle

/-- An event that tells no outcome keeps every outcome told after its start. -/
theorem started_before_append {history : List Event} {e : Event}
    (h : ∀ pre post id outcome, history = pre ++ .told id outcome :: post →
      .started id outcome.project ∈ pre)
    (he : ∀ id outcome, e = .told id outcome → .started id outcome.project ∈ history) :
    ∀ pre post id outcome, history ++ [e] = pre ++ .told id outcome :: post →
      .started id outcome.project ∈ pre := by
  intro pre post id outcome heq
  rcases List.eq_nil_or_concat post with rfl | ⟨post', last, rfl⟩
  · obtain ⟨rfl, hlast⟩ := List.append_inj' heq rfl
    exact he id outcome (by simpa using hlast)
  · have hassoc : pre ++ .told id outcome :: (post' ++ [last]) =
        (pre ++ .told id outcome :: post') ++ [last] := by simp
    rw [List.concat_eq_append, hassoc] at heq
    exact h pre post' id outcome (List.append_inj' heq rfl).1

namespace Inv

variable {limit : Nat} {cwd : Path} {owners : Ownership} {tasks : List Task} {s : Pool}
  {ended joined : List Job} {job : Job}

theorem initial : Inv limit cwd owners tasks (initial limit tasks) [] [] where
  permits := Nat.zero_add _
  ended_eq := rfl
  tasks_perm := List.Perm.refl _
  ids_distinct := List.nodup_nil
  spawned_first _ := rfl
  pending j hj := absurd hj List.not_mem_nil
  lost := rfl
  outcomes_eq := rfl
  told := rfl
  ends := rfl
  starts := List.Perm.refl _
  started_before pre post id outcome h := by simp [Pool.initial] at h

/-- While tasks are still to be spawned, an id that is not live is new. -/
theorem new_of_not_live (h : Inv limit cwd owners tasks s ended joined) {id : Nat}
    (hleft : s.unspawned ≠ []) (hid : ¬ s.Live id) :
    id ∉ (s.jobs ended joined).map Job.id := by
  have hended : s.ended.map Prod.fst = ended.map Job.id := by simp [h.ended_eq]
  rw [Live, hended] at hid
  rw [jobs, h.spawned_first hleft]
  simpa [not_or] using hid

theorem spawn (h : Inv limit cwd owners tasks s ended joined) {id : Nat} {task : Task}
    {rest : List Task} (hleft : s.unspawned = task :: rest) (hid : ¬ s.Live id) :
    Inv limit cwd owners tasks (s.spawn id task rest) ended joined := by
  have hnew := h.new_of_not_live (by simp [hleft]) hid
  have hjobs : ((s.spawn id task rest).jobs ended joined).Perm
      (⟨id, task⟩ :: s.jobs ended joined) := by
    simp [jobs, Pool.spawn]
  exact {
    permits := h.permits
    ended_eq := h.ended_eq
    tasks_perm := by
      refine ((hjobs.map Job.task).append_right rest).trans ?_
      refine List.perm_middle.symm.trans ?_
      rw [← hleft]
      exact h.tasks_perm
    ids_distinct := by
      rw [(hjobs.map Job.id).nodup_iff]
      exact List.nodup_cons.mpr ⟨hnew, h.ids_distinct⟩
    spawned_first := fun _ => h.spawned_first (by simp [hleft])
    pending := fun j hj => by
      -- The entry of the new id is written, and no older task has that id.
      by_cases hj' : j ∈ s.waiting ++ s.running ++ ended
      · have hne : j.id ≠ id := fun heq => hnew (heq ▸
          List.mem_map_of_mem (List.mem_append_left joined hj'))
        simp only [Pool.spawn, if_neg hne]
        exact h.pending j hj'
      · have hjob : j = ⟨id, task⟩ := by
          simp only [Pool.spawn, List.mem_append, List.mem_singleton] at hj hj'
          tauto
        simp [Pool.spawn, hjob]
    lost := h.lost
    outcomes_eq := h.outcomes_eq
    told := h.told
    ends := h.ends
    starts := h.starts
    started_before := h.started_before }

theorem start (h : Inv limit cwd owners tasks s ended joined) {job : Job} {before after : List Job}
    (hwaiting : s.waiting = before ++ job :: after) (hpermit : 0 < s.permits) :
    Inv limit cwd owners tasks (s.start job (before ++ after)) ended joined := by
  have hjobs : ((s.start job (before ++ after)).jobs ended joined).Perm (s.jobs ended joined) := by
    simp only [jobs, Pool.start, hwaiting, List.append_assoc, List.cons_append, List.nil_append]
    exact perm_move_back [] before after s.running _ job
  exact {
    permits := by
      have hold := h.permits
      simp only [Pool.start, List.length_append, List.length_singleton]
      omega
    ended_eq := h.ended_eq
    tasks_perm := ((hjobs.map Job.task).append_right s.unspawned).trans h.tasks_perm
    ids_distinct := (hjobs.map Job.id).nodup_iff.mpr h.ids_distinct
    spawned_first := h.spawned_first
    pending := fun j hj => by
      refine h.pending j ?_
      simp only [Pool.start, hwaiting, List.mem_append, List.mem_cons, List.not_mem_nil,
        or_false] at hj ⊢
      tauto
    lost := h.lost
    outcomes_eq := h.outcomes_eq
    told := by simpa [Pool.start, List.filterMap_cons, Event.told?] using h.told
    ends := by simpa [Pool.start, List.filterMap_cons, Event.ended?] using h.ends
    starts := by
      simp only [Pool.start, List.filterMap_append, List.append_assoc, List.map_append]
      refine (h.starts.append_right _).trans ?_
      simp only [Event.started?, List.filterMap_cons, List.filterMap_nil, List.map_append,
        List.append_assoc, List.map_cons, List.map_nil, List.cons_append, List.nil_append]
      simpa using perm_move_back (s.running.map fun j => (j.id, j.task.project)) []
        (ended.map fun j => (j.id, j.task.project)) (joined.map fun j => (j.id, j.task.project)) []
        (job.id, job.task.project)
    started_before := started_before_append h.started_before (fun _ _ he => nomatch he) }

theorem finish (h : Inv limit cwd owners tasks s ended joined) {job : Job}
    {before after : List Job} (hrunning : s.running = before ++ job :: after) :
    Inv limit cwd owners tasks (s.finish cwd owners job (before ++ after)) (ended ++ [job])
      joined := by
  have hjobs : ((s.finish cwd owners job (before ++ after)).jobs (ended ++ [job]) joined).Perm
      (s.jobs ended joined) := by
    simp only [jobs, Pool.finish, hrunning, List.append_assoc, List.cons_append, List.nil_append]
    exact perm_move_back s.waiting before after ended joined job
  exact {
    permits := by
      have hold := h.permits
      simp only [Pool.finish, hrunning, List.length_append, List.length_cons] at hold ⊢
      omega
    ended_eq := by simp [Pool.finish, h.ended_eq]
    tasks_perm := ((hjobs.map Job.task).append_right s.unspawned).trans h.tasks_perm
    ids_distinct := (hjobs.map Job.id).nodup_iff.mpr h.ids_distinct
    spawned_first := h.spawned_first
    pending := fun j hj => by
      refine h.pending j ?_
      simp only [Pool.finish, hrunning, List.mem_append, List.mem_cons, List.not_mem_nil,
        or_false] at hj ⊢
      tauto
    lost := h.lost
    outcomes_eq := h.outcomes_eq
    told := by simpa [Pool.finish, List.filterMap_cons, Event.told?] using h.told
    ends := by simp [Pool.finish, Event.ended?, h.ends]
    starts := by
      have hperm : ((before ++ after) ++ (ended ++ [job]) ++ joined).Perm
          (s.running ++ ended ++ joined) := by
        simpa [hrunning] using perm_move_back [] before after ended joined job
      have hold := h.starts
      simp only [Pool.finish, List.filterMap_append, Event.started?, List.filterMap_cons,
        List.filterMap_nil, List.append_nil]
      exact hold.trans (hperm.map _).symm
    started_before := started_before_append h.started_before (fun _ _ he => nomatch he) }

/-- A task that breaks down has the outcome that is made of its noted project. -/
theorem collect_eq (h : Inv limit cwd owners tasks s (job :: ended) joined) {id : Nat}
    {handed : Option Outcome} {rest : List (Nat × Option Outcome)}
    (hended : s.ended = (id, handed) :: rest) :
    s.collect id handed rest =
      ({ s with ended := rest, pending := fun i => if i = job.id then none else s.pending i } :
        Pool).tell job.id (outcomeOf cwd owners job) := by
  have heq := h.ended_eq
  rw [hended, List.map_cons, List.cons.injEq, Prod.mk.injEq] at heq
  obtain ⟨⟨rfl, rfl⟩, rfl⟩ := heq
  have hproject : s.pending job.id = some job.task.project := h.pending job (by simp)
  unfold Pool.collect Task.handBack outcomeOf
  cases hrun : job.task.run <;> simp [hproject, check]

theorem collect (h : Inv limit cwd owners tasks s (job :: ended) joined) (hleft : s.unspawned = [])
    {id : Nat} {handed : Option Outcome} {rest : List (Nat × Option Outcome)}
    (hended : s.ended = (id, handed) :: rest) :
    Inv limit cwd owners tasks (s.collect id handed rest) ended (joined ++ [job]) := by
  have hjobs : (s.waiting ++ s.running ++ ended ++ (joined ++ [job])).Perm
      (s.jobs (job :: ended) joined) := by
    simpa [jobs] using perm_move_back s.waiting s.running ended joined [] job
  have hids : ((s.waiting ++ s.running ++ ended ++ (joined ++ [job])).map Job.id).Nodup :=
    (hjobs.map Job.id).nodup_iff.mpr h.ids_distinct
  rw [h.collect_eq hended]
  have heq := h.ended_eq
  rw [hended, List.map_cons, List.cons.injEq] at heq
  exact {
    permits := h.permits
    ended_eq := heq.2
    tasks_perm := ((hjobs.map Job.task).append_right s.unspawned).trans h.tasks_perm
    ids_distinct := hids
    spawned_first := fun hne => absurd hleft hne
    pending := fun j hj => by
      -- The entry of `job` is removed, and no task that is left has its id.
      have hne : j.id ≠ job.id := by
        rw [List.map_append, List.nodup_append] at hids
        exact hids.2.2 j.id (List.mem_map_of_mem hj) job.id (by simp)
      have hold : s.pending j.id = some j.task.project := by
        refine h.pending j ?_
        simp only [tell, List.mem_append, List.mem_cons] at hj ⊢
        tauto
      simpa [tell, hne] using hold
    lost := h.lost
    outcomes_eq := by simp [tell, h.outcomes_eq]
    told := by simp [tell, Event.told?, h.told]
    ends := by simpa [tell, List.filterMap_cons, Event.ended?] using h.ends
    starts := by
      have hperm : (s.running ++ ended ++ (joined ++ [job])).Perm
          (s.running ++ (job :: ended) ++ joined) := by
        simpa using perm_move_back [] s.running ended joined [] job
      have hold := h.starts
      simp only [tell, List.filterMap_append, Event.started?, List.filterMap_cons,
        List.filterMap_nil, List.append_nil]
      exact hold.trans (hperm.map _).symm
    started_before := by
      refine started_before_append h.started_before fun id outcome he => ?_
      cases he
      -- `job` is one of the tasks that have started, so its start is in the history.
      rw [outcomeOf, project_check]
      have hmem : (job.id, job.task.project) ∈ s.history.filterMap Event.started? := by
        rw [h.starts.mem_iff]
        exact List.mem_map.mpr ⟨job, by simp, rfl⟩
      obtain ⟨e, he, hstarted⟩ := List.mem_filterMap.mp hmem
      cases e with
      | started id project =>
        simp only [Event.started?, Option.some.injEq, Prod.mk.injEq] at hstarted
        rw [← hstarted.1, ← hstarted.2]
        exact he
      | ended id => cases hstarted
      | told id outcome => cases hstarted }

/-- Every step keeps the invariant. -/
theorem step (h : Inv limit cwd owners tasks s ended joined) {s' : Pool} {a : Action}
    (hstep : Step cwd owners s a s') :
    ∃ ended' joined', Inv limit cwd owners tasks s' ended' joined' := by
  cases hstep with
  | spawn hleft hid => exact ⟨ended, joined, h.spawn hleft hid⟩
  | start hwaiting hpermit => exact ⟨ended, joined, h.start hwaiting hpermit⟩
  | @finish job before after hrunning => exact ⟨ended ++ [job], joined, h.finish hrunning⟩
  | @collect id handed rest hleft hended =>
    cases ended with
    | nil => exact absurd (hended.symm.trans h.ended_eq) (List.cons_ne_nil _ _)
    | cons job ended => exact ⟨ended, joined ++ [job], h.collect hleft hended⟩

end Inv

/-! ## What every run does -/

/-- No run gets stuck, and none has too many checkers running. -/
structure Unblocked (limit : Nat) (cwd : Path) (owners : Ownership) (s : Pool) : Prop where
  /-- At most as many checkers run as there are slots. -/
  bounded : s.running.length ≤ slotsOf limit
  /-- A task that is not spawned can be spawned. -/
  can_spawn : s.unspawned ≠ [] → ∃ s', Step cwd owners s .spawn s'
  /-- Every waiting task can start when fewer run than there are slots. -/
  can_start : ∀ job ∈ s.waiting, s.running.length < slotsOf limit →
    ∃ s', Step cwd owners s (.start job.id) s'
  /-- Every running task can finish. -/
  can_finish : ∀ job ∈ s.running, ∃ s', Step cwd owners s (.finish job.id) s'
  /-- When all are spawned, a task that has ended can be collected. -/
  can_collect : s.unspawned = [] → s.ended ≠ [] → ∃ s', Step cwd owners s .collect s'
  /-- As long as a spawned task has not ended, some task can start or finish. -/
  progress : s.waiting ++ s.running ≠ [] →
    ∃ id s', Step cwd owners s (.start id) s' ∨ Step cwd owners s (.finish id) s'
  /-- As long as the run is not finished, it can go on. -/
  not_stuck : ¬ s.Finished → ∃ a s', Step cwd owners s a s'
  /-- Each step is one of those that are still to come, so the run comes to its end. -/
  nearer : ∀ a s', Step cwd owners s a s' → s'.stepsLeft + 1 = s.stepsLeft

/-- What was told fits what happened. -/
structure Recorded (s : Pool) : Prop where
  /-- No task is lost track of. -/
  none_lost : s.lost = 0
  /-- The start of a task is told once. -/
  started_once : ((s.history.filterMap Event.started?).map Prod.fst).Nodup
  /-- The outcome of a task is told once. -/
  told_once : ((s.history.filterMap Event.told?).map Prod.fst).Nodup
  /-- The outcome of a task is told after its start, and is one of the project that started. -/
  started_before : ∀ pre post id outcome, s.history = pre ++ .told id outcome :: post →
    .started id outcome.project ∈ pre
  /-- The outcomes are those that were told, in the same order. -/
  outcomes_told : s.outcomes = (s.history.filterMap Event.told?).map Prod.snd
  /-- Outcomes are told in the order in which tasks end. -/
  told_in_order :
    (s.history.filterMap Event.told?).map Prod.fst <+: s.history.filterMap Event.ended?

/-- At the end of a run every task has started and has its outcome. -/
structure Complete (cwd : Path) (owners : Ownership) (tasks : List Task) (s : Pool) : Prop where
  /-- The projects that started are the given ones. -/
  starts : ((s.history.filterMap Event.started?).map Prod.snd).Perm (tasks.map Task.project)
  /-- The outcomes are those of the given tasks, one for each. -/
  outcomes : s.outcomes.Perm (tasks.map fun t => check cwd owners t.project t.run)
  /-- The projects of the outcomes are the given ones. -/
  projects : (s.outcomes.map Outcome.project).Perm (tasks.map Task.project)
  /-- All that has ended was told. -/
  told_all : (s.history.filterMap Event.told?).map Prod.fst = s.history.filterMap Event.ended?

section Reached

variable {limit : Nat} {cwd : Path} {owners : Ownership} {tasks : List Task} {s : Pool}

theorem Reachable.inv (h : Reachable limit cwd owners tasks s) :
    ∃ ended joined, Inv limit cwd owners tasks s ended joined := by
  induction h with
  | initial => exact ⟨[], [], Inv.initial⟩
  | step _ hstep ih =>
    obtain ⟨ended, joined, hinv⟩ := ih
    exact hinv.step hstep

theorem exists_not_live (s : Pool) : ∃ id, ¬ s.Live id := by
  obtain ⟨id, hid⟩ := Infinite.exists_notMem_finset
    (s.waiting.map Job.id ++ s.running.map Job.id ++ s.ended.map Prod.fst).toFinset
  refine ⟨id, fun hlive => hid ?_⟩
  simpa [Live, or_assoc] using hlive

theorem stepsLeft_step {s' : Pool} {a : Action} (h : Step cwd owners s a s') :
    s'.stepsLeft + 1 = s.stepsLeft := by
  cases h with
  | spawn hleft _ =>
    simp only [stepsLeft, Pool.spawn, hleft, List.length_append, List.length_cons, List.length_nil]
    omega
  | start hwaiting _ =>
    simp only [stepsLeft, Pool.start, hwaiting, List.length_append, List.length_cons,
      List.length_nil]
    omega
  | finish hrunning =>
    simp only [stepsLeft, Pool.finish, hrunning, List.length_append, List.length_cons,
      List.length_nil]
    omega
  | @collect id handed rest hleft hended =>
    unfold collect
    split <;> simp only [stepsLeft, tell, hended, List.length_cons] <;> omega

theorem slotsOf_pos (limit : Nat) : 0 < slotsOf limit :=
  Nat.lt_of_lt_of_le Nat.zero_lt_one (Nat.le_max_right limit 1)

theorem Inv.unblocked {ended joined : List Job} (h : Inv limit cwd owners tasks s ended joined) :
    Unblocked limit cwd owners s := by
  have hspawn : s.unspawned ≠ [] → ∃ s', Step cwd owners s .spawn s' := by
    intro hleft
    obtain ⟨task, rest, heq⟩ := List.exists_cons_of_ne_nil hleft
    obtain ⟨id, hid⟩ := s.exists_not_live
    exact ⟨_, .spawn heq hid⟩
  have hstart : ∀ job ∈ s.waiting, s.running.length < slotsOf limit →
      ∃ s', Step cwd owners s (.start job.id) s' := by
    intro job hjob hroom
    obtain ⟨before, after, heq⟩ := List.append_of_mem hjob
    have hpermit : 0 < s.permits := by
      have hold := h.permits
      omega
    exact ⟨_, .start heq hpermit⟩
  have hfinish : ∀ job ∈ s.running, ∃ s', Step cwd owners s (.finish job.id) s' := by
    intro job hjob
    obtain ⟨before, after, heq⟩ := List.append_of_mem hjob
    exact ⟨_, .finish heq⟩
  have hcollect : s.unspawned = [] → s.ended ≠ [] → ∃ s', Step cwd owners s .collect s' := by
    intro hleft hended
    obtain ⟨⟨id, handed⟩, rest, heq⟩ := List.exists_cons_of_ne_nil hended
    exact ⟨_, .collect hleft heq⟩
  have hprogress : s.waiting ++ s.running ≠ [] →
      ∃ id s', Step cwd owners s (.start id) s' ∨ Step cwd owners s (.finish id) s' := by
    intro hne
    cases hrunning : s.running with
    | cons job rest =>
      obtain ⟨s', hs'⟩ := hfinish job (by simp [hrunning])
      exact ⟨job.id, s', .inr hs'⟩
    | nil =>
      -- Nothing runs, so there is room, and the nonempty queue must be the waiting one.
      rw [hrunning, List.append_nil] at hne
      obtain ⟨job, hjob⟩ := List.exists_mem_of_ne_nil _ hne
      obtain ⟨s', hs'⟩ := hstart job hjob (by simpa [hrunning] using slotsOf_pos limit)
      exact ⟨job.id, s', .inl hs'⟩
  exact {
    bounded := by
      have hold := h.permits
      omega
    can_spawn := hspawn
    can_start := hstart
    can_finish := hfinish
    can_collect := hcollect
    progress := hprogress
    not_stuck := by
      intro hopen
      by_cases hleft : s.unspawned = []
      · by_cases hqueue : s.waiting ++ s.running = []
        · -- All have ended, and as the run is not finished one is still to be collected.
          have hended : s.ended ≠ [] := by
            intro hended
            obtain ⟨hwaiting, hrunning⟩ := List.append_eq_nil_iff.mp hqueue
            exact hopen ⟨hleft, hwaiting, hrunning, hended⟩
          exact ⟨_, hcollect hleft hended⟩
        · obtain ⟨id, s', hs' | hs'⟩ := hprogress hqueue
          · exact ⟨_, s', hs'⟩
          · exact ⟨_, s', hs'⟩
      · exact ⟨_, hspawn hleft⟩
    nearer := fun _ _ => stepsLeft_step }

theorem Inv.recorded {ended joined : List Job} (h : Inv limit cwd owners tasks s ended joined) :
    Recorded s := by
  have hids := h.ids_distinct
  rw [jobs, List.map_append, List.map_append, List.map_append] at hids
  exact {
    none_lost := h.lost
    started_once := by
      rw [(h.starts.map Prod.fst).nodup_iff, List.map_map]
      simp only [List.map_append, List.append_assoc] at hids ⊢
      exact (List.nodup_append.mp hids).2.1
    told_once := by
      rw [h.told, List.map_map]
      exact (List.nodup_append.mp hids).2.1
    started_before := h.started_before
    outcomes_told := by
      rw [h.told, h.outcomes_eq, List.map_map]
      rfl
    told_in_order := by
      rw [h.told, h.ends, List.map_map, List.map_append]
      exact List.prefix_append _ _ }

theorem Inv.complete {ended joined : List Job} (h : Inv limit cwd owners tasks s ended joined)
    (hfinished : s.Finished) : Complete cwd owners tasks s := by
  obtain ⟨hleft, hwaiting, hrunning, hended⟩ := hfinished
  have hnone : ended = [] := by
    have heq := h.ended_eq
    rw [hended] at heq
    exact List.map_eq_nil_iff.mp heq.symm
  have htasks : (joined.map Job.task).Perm tasks := by
    simpa [jobs, hwaiting, hrunning, hnone, hleft] using h.tasks_perm
  have houtcomes : s.outcomes.Perm (tasks.map fun t => check cwd owners t.project t.run) := by
    have hmap : joined.map (outcomeOf cwd owners) =
        (joined.map Job.task).map fun t => check cwd owners t.project t.run := by
      rw [List.map_map]
      rfl
    rw [h.outcomes_eq, hmap]
    exact htasks.map _
  exact {
    starts := by
      refine (h.starts.map Prod.snd).trans ?_
      simpa [hrunning, hnone, Function.comp_def] using htasks.map Task.project
    outcomes := houtcomes
    projects := by
      simpa [Function.comp_def, project_check] using houtcomes.map Outcome.project
    told_all := by
      rw [h.told, h.ends, hnone, List.map_map, List.append_nil]
      rfl }

/-- Whatever order the tasks of a run take, no state that it reaches is stuck or has too many
checkers running, what was told fits what happened, and at the end every task has its outcome. -/
theorem Reachable.accounted (h : Reachable limit cwd owners tasks s) :
    Unblocked limit cwd owners s ∧ Recorded s ∧ (s.Finished → Complete cwd owners tasks s) := by
  obtain ⟨ended, joined, hinv⟩ := h.inv
  exact ⟨hinv.unblocked, hinv.recorded, hinv.complete⟩

end Reached

end Pool

end Typesweep
