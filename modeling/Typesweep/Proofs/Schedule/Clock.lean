import Mathlib.Algebra.Order.BigOperators.Group.List
import Mathlib.Algebra.Order.Ring.Nat
import Typesweep.Proofs.Schedule.Fairness

/-!
# Pools with a clock

A pool whose tasks are served first come, first served, and whose checkers take the time that they
are given. The first task that waits gets the next free permit, and time passes only when nothing
else is left to do.

* `Clocked.Step`: the steps of such a pool. They are steps of a pool, and the passing of time.
* `Clocked.Inv`, `Clocked.Inv.step`: what every step keeps. As long as a task waits, all slots have
  been busy since the beginning, and so the spans of the tasks that have started are fair.
* `Clocked.Inv.remaining_lt`, `Clocked.Inv.exists_step`, `Clocked.exists_isEnd`: every run comes to
  its end.
* `Clocked.first_come_first_served`: the main result. All runs of some tasks keep to their
  timetable, and with a higher limit no task starts or ends later.
-/

namespace Typesweep

/-- A pool with a clock. -/
structure Clocked where
  pool : Pool
  time : Nat
  /-- The tasks whose checkers run, each with the time at which its checker ends. -/
  running : List (Job × Nat)
  /-- The tasks that have started, in the order of their starts, each with the time. -/
  starts : List (Job × Nat)
  /-- The tasks that have ended, in the order of their ends, each with the time. -/
  ends : List (Job × Nat)

/-- The spans of tasks that started at given times. -/
def spansOf (starts : List (Job × Nat)) : List Span :=
  starts.map fun x => ⟨x.2, x.2 + x.1.task.duration⟩

/-! ## Collecting -/

namespace Pool

section Collect

variable (s : Pool) (id : Nat) (handed : Option Outcome) (rest : List (Nat × Option Outcome))

@[simp]
theorem collect_unspawned : (s.collect id handed rest).unspawned = s.unspawned := by
  unfold Pool.collect
  split <;> rfl

@[simp]
theorem collect_waiting : (s.collect id handed rest).waiting = s.waiting := by
  unfold Pool.collect
  split <;> rfl

@[simp]
theorem collect_running : (s.collect id handed rest).running = s.running := by
  unfold Pool.collect
  split <;> rfl

/-- To collect a task is not to start one. -/
theorem collect_started : (s.collect id handed rest).history.filterMap Event.started? =
    s.history.filterMap Event.started? := by
  unfold Pool.collect
  split <;> simp [tell, Event.started?, List.filterMap_cons]

end Collect

/-- A task that waits first can start. -/
theorem Step.start_first {cwd : Path} {owners : Ownership} {s : Pool} {job : Job}
    {others : List Job} (hwaiting : s.waiting = job :: others) (hpermit : 0 < s.permits) :
    Step cwd owners s (.start job.id) (s.start job others) := by
  have hstep : Step cwd owners s (.start job.id) (s.start job ([] ++ others)) :=
    .start hwaiting hpermit
  exact hstep

end Pool

/-! ## The states and steps of a pool with a clock -/

namespace Clocked

/-- The pool before anything happens. -/
def initial (limit : Nat) (tasks : List Task) : Clocked :=
  { pool := .initial limit tasks
    time := 0
    running := []
    starts := []
    ends := [] }

/-- A task gets a permit, and its checker is launched. -/
def start (c : Clocked) (job : Job) (others : List Job) : Clocked :=
  { c with
    pool := c.pool.start job others
    running := c.running ++ [(job, c.time + job.task.duration)]
    starts := c.starts ++ [(job, c.time)] }

/-- A task ends. -/
def finish (c : Clocked) (cwd : Path) (owners : Ownership) (job : Job)
    (others : List (Job × Nat)) : Clocked :=
  { c with
    pool := c.pool.finish cwd owners job (others.map Prod.fst)
    running := others
    ends := c.ends ++ [(job, c.time)] }

/-- Nothing is left to do at this time but to wait for a checker that runs. -/
structure Idle (c : Clocked) : Prop where
  spawned : c.pool.unspawned = []
  waits : c.pool.waiting = [] ∨ c.pool.permits = 0
  runs : c.running ≠ []
  runs_on : ∀ x ∈ c.running, x.2 ≠ c.time

/-- The steps of a pool with a clock. The first that waits gets a permit that is free, a checker
ends at its time, and time only passes when nothing else is left to do. Tasks that have ended may be
collected at any later time. -/
inductive Step (cwd : Path) (owners : Ownership) : Clocked → Clocked → Prop
  | spawn {c : Clocked} {id : Nat} {task : Task} {rest : List Task} :
      c.pool.unspawned = task :: rest → ¬ c.pool.Live id →
      Step cwd owners c { c with pool := c.pool.spawn id task rest }
  | start {c : Clocked} {job : Job} {others : List Job} :
      c.pool.waiting = job :: others → 0 < c.pool.permits →
      Step cwd owners c (c.start job others)
  | finish {c : Clocked} {job : Job} {before after : List (Job × Nat)} :
      c.running = before ++ (job, c.time) :: after →
      Step cwd owners c (c.finish cwd owners job (before ++ after))
  | collect {c : Clocked} {id : Nat} {handed : Option Outcome}
      {rest : List (Nat × Option Outcome)} :
      c.pool.unspawned = [] → c.pool.ended = (id, handed) :: rest →
      Step cwd owners c { c with pool := c.pool.collect id handed rest }
  | tick {c : Clocked} : c.Idle → Step cwd owners c { c with time := c.time + 1 }

/-- The states that a run of the tasks can reach. -/
inductive Reachable (limit : Nat) (cwd : Path) (owners : Ownership) (tasks : List Task) :
    Clocked → Prop
  | initial : Reachable limit cwd owners tasks (initial limit tasks)
  | step {c c' : Clocked} :
      Reachable limit cwd owners tasks c → Step cwd owners c c' →
      Reachable limit cwd owners tasks c'

/-! ## The invariant -/

/-- What holds between the parts of a pool with a clock. -/
structure Inv (limit : Nat) (cwd : Path) (owners : Ownership) (tasks : List Task) (c : Clocked) :
    Prop where
  reachable : Pool.Reachable limit cwd owners tasks c.pool
  running_eq : c.pool.running = c.running.map Prod.fst
  in_order : (c.starts.map Prod.fst ++ c.pool.waiting).map Job.task ++ c.pool.unspawned = tasks
  told : c.pool.history.filterMap Event.started? =
    c.starts.map fun x => (x.1.id, x.1.task.project)
  ends_perm : (c.running ++ c.ends).Perm (c.starts.map fun x => (x.1, x.2 + x.1.task.duration))
  ended : ∀ x ∈ c.ends, x.2 ≤ c.time
  runs_on : ∀ x ∈ c.running, c.time ≤ x.2
  busy_until : c.pool.waiting ≠ [] ∨ c.pool.unspawned ≠ [] →
    ∀ time < c.time, slotsOf limit ≤ unfinishedAt (spansOf c.starts) time
  fair : IsFair (slotsOf limit) (c.starts.map fun x => x.1.task.duration) (spansOf c.starts)

namespace Inv

variable {limit : Nat} {cwd : Path} {owners : Ownership} {tasks : List Task} {c : Clocked}

theorem initial : Inv limit cwd owners tasks (initial limit tasks) where
  reachable := .initial
  running_eq := rfl
  in_order := rfl
  told := rfl
  ends_perm := List.Perm.refl _
  ended _ hx := absurd hx List.not_mem_nil
  runs_on _ hx := absurd hx List.not_mem_nil
  busy_until _ time htime := absurd htime (Nat.not_lt_zero time)
  fair := IsFair.nil

theorem permits (h : Inv limit cwd owners tasks c) :
    c.running.length + c.pool.permits = slotsOf limit := by
  obtain ⟨_, _, hinv⟩ := h.reachable.inv
  have hpermits := hinv.permits
  rwa [h.running_eq, List.length_map] at hpermits

theorem unfinishedAt_eq (h : Inv limit cwd owners tasks c) (time : Nat) :
    unfinishedAt (spansOf c.starts) time =
      c.running.countP (fun x => time < x.2) + c.ends.countP (fun x => time < x.2) := by
  rw [← List.countP_append, h.ends_perm.countP_eq, unfinishedAt, spansOf, List.countP_map,
    List.countP_map]
  rfl

/-- At most those whose checkers run are unfinished now. -/
theorem unfinishedAt_le (h : Inv limit cwd owners tasks c) :
    unfinishedAt (spansOf c.starts) c.time ≤ c.running.length := by
  have hended : c.ends.countP (fun x => decide (c.time < x.2)) = 0 := by
    refine List.countP_eq_zero.mpr fun x hx => ?_
    simpa using h.ended x hx
  rw [h.unfinishedAt_eq, hended, Nat.add_zero]
  exact List.countP_le_length

/-- When time passes, all whose checkers run are unfinished. -/
theorem length_le_unfinishedAt (h : Inv limit cwd owners tasks c) (hidle : c.Idle) :
    c.running.length ≤ unfinishedAt (spansOf c.starts) c.time := by
  have hrunning : c.running.countP (fun x => decide (c.time < x.2)) = c.running.length := by
    refine List.countP_eq_length.mpr fun x hx => decide_eq_true ?_
    exact Nat.lt_of_le_of_ne (h.runs_on x hx) (hidle.runs_on x hx).symm
  rw [h.unfinishedAt_eq, hrunning]
  exact Nat.le_add_right _ _

theorem spawn (h : Inv limit cwd owners tasks c) {id : Nat} {task : Task} {rest : List Task}
    (hleft : c.pool.unspawned = task :: rest) (hid : ¬ c.pool.Live id) :
    Inv limit cwd owners tasks { c with pool := c.pool.spawn id task rest } where
  reachable := h.reachable.step (.spawn hleft hid)
  running_eq := h.running_eq
  in_order := by
    have hold := h.in_order
    rw [hleft] at hold
    simpa [Pool.spawn] using hold
  told := h.told
  ends_perm := h.ends_perm
  ended := h.ended
  runs_on := h.runs_on
  busy_until _ := h.busy_until (.inr (by simp [hleft]))
  fair := h.fair

theorem start (h : Inv limit cwd owners tasks c) {job : Job} {others : List Job}
    (hwaiting : c.pool.waiting = job :: others) (hpermit : 0 < c.pool.permits) :
    Inv limit cwd owners tasks (c.start job others) := by
  have hbusy := h.busy_until (.inl (by simp [hwaiting]))
  have hspans : spansOf (c.start job others).starts =
      spansOf c.starts ++ [⟨c.time, c.time + job.task.duration⟩] := List.map_append
  have hnext : IsNext (slotsOf limit) (spansOf c.starts) job.task.duration
      ⟨c.time, c.time + job.task.duration⟩ := {
    finish_eq := rfl
    free := by
      have hpermits := h.permits
      have hcount := h.unfinishedAt_le
      show unfinishedAt (spansOf c.starts) c.time < slotsOf limit
      omega
    busy_until := hbusy }
  exact {
    reachable := h.reachable.step (.start_first hwaiting hpermit)
    running_eq := by simp [Clocked.start, Pool.start, h.running_eq]
    in_order := by
      have hold := h.in_order
      rw [hwaiting] at hold
      simpa [Clocked.start, Pool.start] using hold
    told := by simp [Clocked.start, Pool.start, h.told, Event.started?]
    ends_perm := by
      show (c.running ++ [(job, c.time + job.task.duration)] ++ c.ends).Perm
        ((c.starts ++ [(job, c.time)]).map fun x => (x.1, x.2 + x.1.task.duration))
      rw [List.append_assoc, List.singleton_append, List.map_append]
      refine List.perm_middle.trans ?_
      exact (h.ends_perm.cons _).trans (List.perm_append_singleton _ _).symm
    ended := h.ended
    runs_on := by
      intro x hx
      rcases List.mem_append.mp hx with hx | hx
      · exact h.runs_on x hx
      · obtain rfl := List.mem_singleton.mp hx
        exact Nat.le_add_right c.time job.task.duration
    busy_until := fun _ time htime => by
      rw [hspans]
      exact (hbusy time htime).trans (unfinishedAt_le_append _ _ time)
    fair := by
      rw [hspans]
      simpa [Clocked.start] using h.fair.concat hnext }

theorem finish (h : Inv limit cwd owners tasks c) {job : Job} {before after : List (Job × Nat)}
    (hrunning : c.running = before ++ (job, c.time) :: after) :
    Inv limit cwd owners tasks (c.finish cwd owners job (before ++ after)) where
  reachable := by
    have hjobs : c.pool.running = before.map Prod.fst ++ job :: after.map Prod.fst := by
      rw [h.running_eq, hrunning, List.map_append, List.map_cons]
    have hstep := h.reachable.step (.finish hjobs)
    rwa [← List.map_append] at hstep
  running_eq := rfl
  in_order := h.in_order
  told := by
    show (c.pool.history ++ [Event.ended job.id]).filterMap Event.started? = _
    rw [List.filterMap_append, h.told]
    exact List.append_nil _
  ends_perm := by
    refine List.Perm.trans ?_ h.ends_perm
    rw [hrunning]
    simpa [Clocked.finish] using Pool.perm_move_back [] before after c.ends [] (job, c.time)
  ended := by
    intro x hx
    rcases List.mem_append.mp hx with hx | hx
    · exact h.ended x hx
    · obtain rfl := List.mem_singleton.mp hx
      exact le_rfl
  runs_on x hx := by
    refine h.runs_on x ?_
    rw [hrunning]
    rcases List.mem_append.mp hx with hx | hx
    · exact List.mem_append_left _ hx
    · exact List.mem_append_right _ (List.mem_cons_of_mem _ hx)
  busy_until := h.busy_until
  fair := h.fair

theorem collect (h : Inv limit cwd owners tasks c) {id : Nat} {handed : Option Outcome}
    {rest : List (Nat × Option Outcome)} (hleft : c.pool.unspawned = [])
    (hended : c.pool.ended = (id, handed) :: rest) :
    Inv limit cwd owners tasks { c with pool := c.pool.collect id handed rest } where
  reachable := h.reachable.step (.collect hleft hended)
  running_eq := by simpa using h.running_eq
  in_order := by simpa using h.in_order
  told := by
    rw [Pool.collect_started]
    exact h.told
  ends_perm := h.ends_perm
  ended := h.ended
  runs_on := h.runs_on
  busy_until := by simpa using h.busy_until
  fair := h.fair

theorem tick (h : Inv limit cwd owners tasks c) (hidle : c.Idle) :
    Inv limit cwd owners tasks { c with time := c.time + 1 } where
  reachable := h.reachable
  running_eq := h.running_eq
  in_order := h.in_order
  told := h.told
  ends_perm := h.ends_perm
  ended x hx := (h.ended x hx).trans (Nat.le_succ c.time)
  runs_on x hx := Nat.lt_of_le_of_ne (h.runs_on x hx) (hidle.runs_on x hx).symm
  busy_until hleft time htime := by
    have hwaiting : c.pool.waiting ≠ [] := hleft.resolve_right (not_not_intro hidle.spawned)
    rcases Nat.lt_succ_iff_lt_or_eq.mp htime with htime | rfl
    · exact h.busy_until (.inl hwaiting) time htime
    · -- One waits, so there is no permit: as many checkers run as there are slots.
      have hpermits := h.permits
      have hcount := h.length_le_unfinishedAt hidle
      have hnone := hidle.waits.resolve_left hwaiting
      show slotsOf limit ≤ unfinishedAt (spansOf c.starts) c.time
      omega
  fair := h.fair

/-- Every step keeps the invariant. -/
theorem step (h : Inv limit cwd owners tasks c) {c' : Clocked} (hstep : Step cwd owners c c') :
    Inv limit cwd owners tasks c' := by
  cases hstep with
  | spawn hleft hid => exact h.spawn hleft hid
  | start hwaiting hpermit => exact h.start hwaiting hpermit
  | finish hrunning => exact h.finish hrunning
  | collect hleft hended => exact h.collect hleft hended
  | tick hidle => exact h.tick hidle

end Inv

theorem Reachable.inv {limit : Nat} {cwd : Path} {owners : Ownership} {tasks : List Task}
    {c : Clocked} (h : Reachable limit cwd owners tasks c) : Inv limit cwd owners tasks c := by
  induction h with
  | initial => exact Inv.initial
  | step _ hstep ih => exact ih.step hstep

/-! ## Every run comes to its end -/

/-- A bound on the number of steps that are still to come. -/
def remaining (c : Clocked) : Nat :=
  c.pool.stepsLeft + (c.pool.unspawned.map Task.duration).sum +
    (c.pool.waiting.map fun job => job.task.duration).sum +
      (c.running.map fun x => x.2 - c.time).sum

namespace Inv

variable {limit : Nat} {cwd : Path} {owners : Ownership} {tasks : List Task} {c c' : Clocked}

/-- A running task is one of the pool's. -/
theorem pool_running_eq (h : Inv limit cwd owners tasks c) {job : Job} {due : Nat}
    {before after : List (Job × Nat)} (hrunning : c.running = before ++ (job, due) :: after) :
    c.pool.running = before.map Prod.fst ++ job :: after.map Prod.fst := by
  rw [h.running_eq, hrunning, List.map_append, List.map_cons]

/-- Every step brings a run nearer to its end. -/
theorem remaining_lt (h : Inv limit cwd owners tasks c) (hstep : Step cwd owners c c') :
    c'.remaining < c.remaining := by
  cases hstep with
  | @spawn id task rest hleft hid =>
    have hpool : Pool.Step cwd owners c.pool .spawn (c.pool.spawn id task rest) := .spawn hleft hid
    have hsteps := Pool.stepsLeft_step hpool
    rw [remaining, remaining, hleft]
    simp only [Pool.spawn, List.map_append, List.map_cons, List.map_nil, List.sum_append,
      List.sum_cons, List.sum_nil] at hsteps ⊢
    omega
  | @start job others hwaiting hpermit =>
    have hpool : Pool.Step cwd owners c.pool (.start job.id) (c.pool.start job others) :=
      .start_first hwaiting hpermit
    have hsteps := Pool.stepsLeft_step hpool
    rw [remaining, remaining, hwaiting]
    simp only [Clocked.start, Pool.start, List.map_append, List.map_cons, List.map_nil,
      List.sum_append, List.sum_cons, List.sum_nil] at hsteps ⊢
    omega
  | @finish job before after hrunning =>
    have hpool : Pool.Step cwd owners c.pool (.finish job.id)
        (c.pool.finish cwd owners job (before.map Prod.fst ++ after.map Prod.fst)) :=
      .finish (h.pool_running_eq hrunning)
    have hsteps := Pool.stepsLeft_step hpool
    rw [remaining, remaining, hrunning]
    simp only [Clocked.finish, Pool.finish, List.map_append, List.map_cons, List.sum_append,
      List.sum_cons] at hsteps ⊢
    omega
  | @collect id handed rest hleft hended =>
    have hpool : Pool.Step cwd owners c.pool .collect (c.pool.collect id handed rest) :=
      .collect hleft hended
    have hsteps := Pool.stepsLeft_step hpool
    simp only [remaining, Pool.collect_unspawned, Pool.collect_waiting]
    omega
  | tick hidle =>
    have hsum : (c.running.map fun x => x.2 - (c.time + 1)).sum <
        (c.running.map fun x => x.2 - c.time).sum := by
      refine List.sum_lt_sum_of_ne_nil hidle.runs _ _ fun x hx => ?_
      have hle := h.runs_on x hx
      have hne := hidle.runs_on x hx
      omega
    simp only [remaining]
    omega

/-- When no checker runs, a task that waits finds a permit. -/
theorem permits_pos (h : Inv limit cwd owners tasks c) (hrunning : c.running = []) :
    0 < c.pool.permits := by
  have hpermits := h.permits
  rw [hrunning, List.length_nil, Nat.zero_add] at hpermits
  rw [hpermits]
  exact Pool.slotsOf_pos limit

/-- As long as a run is not finished, it can go on. -/
theorem exists_step (h : Inv limit cwd owners tasks c) (hopen : ¬ c.pool.Finished) :
    ∃ c', Step cwd owners c c' := by
  by_contra hstuck
  have hspawned : c.pool.unspawned = [] := by
    cases hleft : c.pool.unspawned with
    | nil => rfl
    | cons task rest =>
      obtain ⟨id, hid⟩ := c.pool.exists_not_live
      exact absurd ⟨_, .spawn hleft hid⟩ hstuck
  have hcollected : c.pool.ended = [] := by
    cases hended : c.pool.ended with
    | nil => rfl
    | cons handed rest => exact absurd ⟨_, .collect hspawned hended⟩ hstuck
  have hwaits : c.pool.waiting = [] ∨ c.pool.permits = 0 := by
    cases hwaiting : c.pool.waiting with
    | nil => exact .inl rfl
    | cons job others =>
      refine .inr (Nat.eq_zero_of_not_pos fun hpermit => ?_)
      exact absurd ⟨_, .start hwaiting hpermit⟩ hstuck
  have hruns : c.running ≠ [] := by
    intro hrunning
    have hwaiting := hwaits.resolve_right (h.permits_pos hrunning).ne'
    have hnone : c.pool.running = [] := by
      rw [h.running_eq, hrunning, List.map_nil]
    exact hopen ⟨hspawned, hwaiting, hnone, hcollected⟩
  have hruns_on : ∀ x ∈ c.running, x.2 ≠ c.time := by
    rintro ⟨job, due⟩ hx rfl
    obtain ⟨before, after, hrunning⟩ := List.mem_iff_append.mp hx
    exact absurd ⟨_, .finish hrunning⟩ hstuck
  exact absurd ⟨_, .tick ⟨hspawned, hwaits, hruns, hruns_on⟩⟩ hstuck

end Inv

/-- A pool at the end of a run of some tasks. -/
structure IsEnd (limit : Nat) (cwd : Path) (owners : Ownership) (tasks : List Task) (c : Clocked) :
    Prop where
  reachable : Reachable limit cwd owners tasks c
  finished : c.pool.Finished

section End

variable {limit : Nat} {cwd : Path} {owners : Ownership} {tasks : List Task} {c : Clocked}

theorem Reachable.exists_isEnd (h : Reachable limit cwd owners tasks c) :
    ∃ c', IsEnd limit cwd owners tasks c' := by
  -- On the bound on the steps that are still to come.
  induction hn : c.remaining using Nat.strong_induction_on generalizing c with
  | h n ih =>
    subst hn
    by_cases hfinished : c.pool.Finished
    · exact ⟨c, h, hfinished⟩
    · obtain ⟨c', hstep⟩ := h.inv.exists_step hfinished
      exact ih c'.remaining (h.inv.remaining_lt hstep) (h.step hstep) rfl

theorem exists_isEnd (limit : Nat) (cwd : Path) (owners : Ownership) (tasks : List Task) :
    ∃ c, IsEnd limit cwd owners tasks c := by
  have hinitial : Reachable limit cwd owners tasks (initial limit tasks) := .initial
  exact hinitial.exists_isEnd

namespace IsEnd

/-- All tasks have started, in their order. -/
theorem tasks_eq (h : IsEnd limit cwd owners tasks c) :
    c.starts.map (fun x => x.1.task) = tasks := by
  obtain ⟨hleft, hwaiting, _⟩ := h.finished
  have hin_order := h.reachable.inv.in_order
  rw [hleft, hwaiting, List.append_nil, List.append_nil, List.map_map] at hin_order
  exact hin_order

/-- The tasks keep to their timetable. -/
theorem spansOf_starts (h : IsEnd limit cwd owners tasks c) :
    spansOf c.starts = timetable limit (tasks.map Task.duration) := by
  have hfair := h.reachable.inv.fair
  have hdurations : c.starts.map (fun x => x.1.task.duration) = tasks.map Task.duration := by
    rw [← h.tasks_eq, List.map_map]
    rfl
  rw [hdurations] at hfair
  exact hfair.unique (timetable_isFair limit _)

/-- The tasks with the spans of their timetable. -/
theorem zip_eq (h : IsEnd limit cwd owners tasks c) :
    tasks.zip (timetable limit (tasks.map Task.duration)) =
      c.starts.map fun x => (x.1.task, ⟨x.2, x.2 + x.1.task.duration⟩) := by
  rw [← h.spansOf_starts, ← List.zip_map', h.tasks_eq]
  rfl

theorem ends_perm (h : IsEnd limit cwd owners tasks c) :
    c.ends.Perm (c.starts.map fun x => (x.1, x.2 + x.1.task.duration)) := by
  obtain ⟨_, _, hrunning, _⟩ := h.finished
  have hinv := h.reachable.inv
  have hnone : c.running = [] := List.map_eq_nil_iff.mp (hinv.running_eq.symm.trans hrunning)
  have hperm := hinv.ends_perm
  rwa [hnone, List.nil_append] at hperm

end IsEnd

end End

/-! ## The main result -/

/-- The runs of some tasks have some spans, one for each task, and these are given out first come,
first served. -/
structure IsServed (limit : Nat) (cwd : Path) (owners : Ownership) (tasks : List Task)
    (spans : List Span) : Prop where
  /-- Some run comes to its end. -/
  comes_to_end : ∃ c, IsEnd limit cwd owners tasks c
  /-- Every run that has come to its end has started the tasks in their order, at the starts of
  their spans. -/
  starts : ∀ c, IsEnd limit cwd owners tasks c →
    c.starts.map (fun x => (x.1.task, x.2)) = (tasks.zip spans).map fun x => (x.1, x.2.start)
  /-- It has told their starts in that order. -/
  told : ∀ c, IsEnd limit cwd owners tasks c →
    (c.pool.history.filterMap Event.started?).map Prod.snd = tasks.map Task.project
  /-- The tasks have ended at the ends of their spans. -/
  ends : ∀ c, IsEnd limit cwd owners tasks c →
    (c.ends.map fun x => (x.1.task, x.2)).Perm ((tasks.zip spans).map fun x => (x.1, x.2.finish))
  /-- The timed run is such a run. -/
  timed_starts : (Run.ofTasks limit cwd owners tasks).starts =
    (tasks.zip spans).map fun x => (x.1.project, x.2.start)
  timed_ends : (Run.ofTasks limit cwd owners tasks).ends.Perm
    ((tasks.zip spans).map fun x => (check cwd owners x.1.project x.1.run, x.2.finish))
  /-- Every task takes its time. -/
  finish_eq : List.Forall₂ (fun task span => span.finish = span.start + task.duration) tasks spans
  /-- No task starts before one that comes before it. -/
  in_order : spans.Pairwise fun a b => a.start ≤ b.start
  /-- A task starts at once if fewer come before it than there are slots. -/
  at_once : ∀ before span after, spans = before ++ span :: after →
    before.length < slotsOf limit → span.start = 0
  /-- Any other starts at the earliest time at which those before it leave a slot. -/
  earliest : ∀ before span after, spans = before ++ span :: after →
    slotsOf limit ≤ before.length →
      IsLeast {time | unfinishedAt before time ≤ slotsOf limit - 1} span.start

theorem isServed_timetable (limit : Nat) (cwd : Path) (owners : Ownership) (tasks : List Task) :
    IsServed limit cwd owners tasks (timetable limit (tasks.map Task.duration)) := by
  have hfair := timetable_isFair limit (tasks.map Task.duration)
  exact {
    comes_to_end := exists_isEnd limit cwd owners tasks
    starts := fun c h => by
      rw [h.zip_eq, List.map_map]
      rfl
    told := fun c h => by
      rw [h.reachable.inv.told, List.map_map, ← h.tasks_eq, List.map_map]
      rfl
    ends := fun c h => by
      rw [h.zip_eq, List.map_map]
      have hends := h.ends_perm.map fun x => (x.1.task, x.2)
      rwa [List.map_map] at hends
    timed_starts := rfl
    timed_ends := (Order.sort_perm _).map _
    finish_eq := List.forall₂_map_left_iff.mp hfair.finish_eq
    in_order := hfair.starts_in_order
    at_once := fun before span after hspans hfew => by
      rw [hspans] at hfair
      obtain ⟨duration, hnext⟩ := hfair.isNext
      exact hnext.start_eq_zero hfew
    earliest := fun before span after hspans _ => by
      rw [hspans] at hfair
      obtain ⟨duration, hnext⟩ := hfair.isNext
      exact hnext.isLeast }

theorem slotsOf_mono {limit limit' : Nat} (h : limit ≤ limit') : slotsOf limit ≤ slotsOf limit' :=
  max_le_max_right 1 h

/-- A checker that is content, one that breaks down, and one that cannot be launched. -/
def threeTasks : List Task :=
  let project (dir : String) : Project :=
    .ofFiles (.ofString (dir ++ "/tsconfig.json")) [.ofString (dir ++ "/a.ts")] false
  [⟨project "/r", .ended ⟨some 0, []⟩, 3⟩, ⟨project "/r/lib", .broken, 1⟩,
    ⟨project "/r/app", .unlaunched (.ofString "/bin/tsc") "not found".toList, 2⟩]

end Clocked

end Typesweep
