import Mathlib.Data.List.Basic
import Typesweep.Proofs.Order
import Typesweep.Proofs.Schedule.Pool

/-!
# Timed runs

`Run.ofTasks` is one of the runs that a pool of its tasks can take: whenever a slot is free the next
task starts, else the first of the running ones ends, and outcomes are told as tasks end.

* `runningAt_timetableFrom_le`, `peakOf_timetable_le`: a timetable never needs more slots than there
  are.
* `Pool.Settled.run`: the runs of a pool that keep to a timetable.
* `Pool.schedule_accounted`: the main result, for any order and for the timed one.
-/

namespace Typesweep

/-! ## Timetables -/

section Timetable

variable {slots duration : Nat} {busy durations : List Nat}

theorem timetableFrom_free (h : busy.length < slots) :
    timetableFrom slots busy (duration :: durations) =
      ⟨0, duration⟩ :: timetableFrom slots (Order.insert compare duration busy) durations := by
  simp only [timetableFrom, if_pos h, Nat.zero_add]

theorem timetableFrom_full {first : Nat} (h : ¬ (first :: busy).length < slots) :
    timetableFrom slots (first :: busy) (duration :: durations) =
      ⟨first, first + duration⟩ ::
        timetableFrom slots (Order.insert compare (first + duration) busy) durations := by
  simp only [timetableFrom, if_neg h, List.headD_cons, List.tail_cons]

theorem timetableFrom_length : (timetableFrom slots busy durations).length = durations.length := by
  induction durations generalizing busy with
  | nil => rfl
  | cons duration durations ih => simp [timetableFrom, ih]

theorem insert_length (time : Nat) (busy : List Nat) :
    (Order.insert compare time busy).length = busy.length + 1 :=
  (Order.insert_perm time busy).length_eq

/-- At any time, those that run and those that hold their slot from before are not more than there
are slots. -/
theorem runningAt_timetableFrom_le (hslots : 0 < slots) (hbusy : busy.length ≤ slots)
    (time : Nat) :
    runningAt (timetableFrom slots busy durations) time + busy.countP (time < ·) ≤ slots := by
  induction durations generalizing busy with
  | nil =>
    have hcount := List.countP_le_length (p := fun finish => decide (time < finish)) (l := busy)
    simp only [timetableFrom, runningAt, List.countP_nil]
    omega
  | cons duration durations ih =>
    by_cases hfree : busy.length < slots
    · rw [timetableFrom_free hfree]
      have hlength : (Order.insert compare duration busy).length ≤ slots := by
        rw [insert_length]
        exact hfree
      have hrest := ih hlength
      rw [(Order.insert_perm duration busy).countP_eq, List.countP_cons] at hrest
      simp only [runningAt, List.countP_cons, Nat.zero_le, decide_true, Bool.true_and] at hrest ⊢
      omega
    · obtain ⟨first, others, rfl⟩ := List.exists_cons_of_ne_nil
        (List.ne_nil_of_length_pos (hslots.trans_le (Nat.le_of_not_lt hfree)))
      rw [timetableFrom_full hfree]
      have hlength : (Order.insert compare (first + duration) others).length ≤ slots := by
        rw [insert_length]
        exact hbusy
      have hrest := ih hlength
      rw [(Order.insert_perm (first + duration) others).countP_eq, List.countP_cons] at hrest
      -- The new task holds the slot from `first` on, the old one until then.
      simp only [runningAt, List.countP_cons, Bool.and_eq_true, decide_eq_true_eq] at hrest ⊢
      split at hrest <;> split <;> split <;> omega

theorem peakOf_le {spans : List Span} {n : Nat} (h : ∀ time, runningAt spans time ≤ n) :
    peakOf spans ≤ n := by
  have hfold : ∀ (counts : List Nat) (m : Nat), m ≤ n → (∀ c ∈ counts, c ≤ n) →
      counts.foldl max m ≤ n := by
    intro counts
    induction counts with
    | nil => exact fun m hm _ => hm
    | cons c counts ih =>
      intro m hm hcounts
      exact ih (max m c) (max_le hm (hcounts c List.mem_cons_self))
        fun c' hc' => hcounts c' (List.mem_cons_of_mem c hc')
  refine hfold _ 0 (Nat.zero_le n) fun c hc => ?_
  obtain ⟨span, _, rfl⟩ := List.mem_map.mp hc
  exact h span.start

theorem peakOf_timetable_le (limit : Nat) (durations : List Nat) :
    peakOf (timetable limit durations) ≤ slotsOf limit := by
  refine peakOf_le fun time => ?_
  have hnone : ([] : List Nat).length ≤ slotsOf limit := Nat.zero_le _
  exact runningAt_timetableFrom_le (Pool.slotsOf_pos limit) hnone time

/-- When all slots are busy, nothing ends before the first of the busy ones. -/
theorem le_finish_of_mem_timetableFrom {time : Nat} (hslots : 0 < slots)
    (hfull : busy.length = slots) (hbusy : ∀ finish ∈ busy, time ≤ finish) :
    ∀ span ∈ timetableFrom slots busy durations, time ≤ span.finish := by
  induction durations generalizing busy with
  | nil => exact fun span hspan => absurd hspan List.not_mem_nil
  | cons duration durations ih =>
    obtain ⟨first, others, rfl⟩ := List.exists_cons_of_ne_nil
      (List.ne_nil_of_length_pos (hfull ▸ hslots))
    have hfirst : time ≤ first + duration :=
      (hbusy first List.mem_cons_self).trans (Nat.le_add_right first duration)
    rw [timetableFrom_full (by omega)]
    intro span hspan
    rcases List.mem_cons.mp hspan with rfl | hspan
    · exact hfirst
    · refine ih ?_ ?_ span hspan
      · rw [insert_length]
        exact hfull
      · intro finish hfinish
        rw [(Order.insert_perm _ _).mem_iff] at hfinish
        rcases List.mem_cons.mp hfinish with rfl | hfinish
        · exact hfirst
        · exact hbusy finish (List.mem_cons_of_mem first hfinish)

end Timetable

/-! ## Pools that keep to a timetable -/

namespace Pool

/-- A reachable pool whose tasks are all spawned and whose ended tasks are all collected. -/
structure Settled (limit : Nat) (cwd : Path) (owners : Ownership) (tasks : List Task)
    (waiting running : List Job) (outcomes : List Outcome) (s : Pool) : Prop where
  reachable : Reachable limit cwd owners tasks s
  unspawned : s.unspawned = []
  waiting_eq : s.waiting = waiting
  running_eq : s.running = running
  ended_eq : s.ended = []
  outcomes_eq : s.outcomes = outcomes
  starts : (s.history.filterMap Event.started?).map Prod.snd ++
    waiting.map (fun job => job.task.project) = tasks.map Task.project

variable {limit : Nat} {cwd : Path} {owners : Ownership} {tasks : List Task}
  {waiting running before after : List Job} {job : Job} {outcomes : List Outcome} {s : Pool}

/-- The tasks that are left can all be spawned before anything else happens. -/
theorem Reachable.spawn_all {rest : List Task} (h : Reachable limit cwd owners tasks s)
    (hrest : s.unspawned = rest) :
    ∃ jobs s', jobs.map Job.task = rest ∧ Reachable limit cwd owners tasks s' ∧
      s'.unspawned = [] ∧ s'.waiting = s.waiting ++ jobs ∧ s'.running = s.running ∧
      s'.ended = s.ended ∧ s'.outcomes = s.outcomes ∧ s'.history = s.history := by
  induction rest generalizing s with
  | nil => exact ⟨[], s, rfl, h, hrest, (List.append_nil _).symm, rfl, rfl, rfl, rfl⟩
  | cons task rest ih =>
    obtain ⟨id, hid⟩ := s.exists_not_live
    obtain ⟨jobs, s', htasks, hs', hleft, hwaiting, hsame⟩ :=
      ih (h.step (.spawn hrest hid)) rfl
    refine ⟨⟨id, task⟩ :: jobs, s', ?_, hs', hleft, ?_, hsame⟩
    · rw [List.map_cons, htasks]
    · rw [hwaiting, Pool.spawn, List.append_assoc]
      rfl

theorem exists_settled (limit : Nat) (cwd : Path) (owners : Ownership) (tasks : List Task) :
    ∃ jobs s, jobs.map Job.task = tasks ∧ Settled limit cwd owners tasks jobs [] [] s := by
  have hinitial : Reachable limit cwd owners tasks (initial limit tasks) := .initial
  obtain ⟨jobs, s, htasks, hs, hleft, hwaiting, hrunning, hended, houtcomes, hhistory⟩ :=
    hinitial.spawn_all rfl
  refine ⟨jobs, s, htasks, ⟨hs, hleft, hwaiting, hrunning, hended, houtcomes, ?_⟩⟩
  have hprojects : (jobs.map Job.task).map Task.project = tasks.map Task.project :=
    congrArg (List.map Task.project) htasks
  rw [hhistory, ← hprojects, List.map_map]
  rfl

namespace Settled

/-- The first waiting task can start when a slot is free. -/
theorem start (h : Settled limit cwd owners tasks (job :: waiting) running outcomes s)
    (hfree : running.length < slotsOf limit) :
    ∃ s', Settled limit cwd owners tasks waiting (running ++ [job]) outcomes s' := by
  obtain ⟨_, _, hinv⟩ := h.reachable.inv
  have hpermit : 0 < s.permits := by
    have hold := hinv.permits
    rw [h.running_eq] at hold
    omega
  have hstep : Step cwd owners s (.start job.id) (s.start job ([] ++ waiting)) :=
    .start h.waiting_eq hpermit
  refine ⟨s.start job ([] ++ waiting), ?_⟩
  exact {
    reachable := h.reachable.step hstep
    unspawned := h.unspawned
    waiting_eq := rfl
    running_eq := by rw [Pool.start, h.running_eq]
    ended_eq := h.ended_eq
    outcomes_eq := h.outcomes_eq
    starts := by
      have hold := h.starts
      simpa [Pool.start, Event.started?] using hold }

/-- A running task can end and have its outcome told before anything else happens. -/
theorem complete
    (h : Settled limit cwd owners tasks waiting (before ++ job :: after) outcomes s) :
    ∃ s', Settled limit cwd owners tasks waiting (before ++ after)
      (outcomes ++ [outcomeOf cwd owners job]) s' := by
  obtain ⟨ended, joined, hinv⟩ := h.reachable.inv
  obtain rfl : ended = [] := by
    have heq := hinv.ended_eq
    rw [h.ended_eq] at heq
    exact List.map_eq_nil_iff.mp heq.symm
  have hfinish := hinv.finish h.running_eq
  have hended : (s.finish cwd owners job (before ++ after)).ended =
      [(job.id, job.task.handBack cwd owners)] := by
    rw [Pool.finish, h.ended_eq]
    rfl
  have hcollect := hfinish.collect_eq hended
  refine ⟨(s.finish cwd owners job (before ++ after)).collect job.id
    (job.task.handBack cwd owners) [], ?_⟩
  exact {
    reachable := (h.reachable.step (.finish h.running_eq)).step (.collect h.unspawned hended)
    unspawned := by
      rw [hcollect]
      exact h.unspawned
    waiting_eq := by
      rw [hcollect]
      exact h.waiting_eq
    running_eq := by
      rw [hcollect]
      rfl
    ended_eq := by
      rw [hcollect]
      rfl
    outcomes_eq := by
      rw [hcollect, tell, Pool.finish, h.outcomes_eq]
    starts := by
      have hold := h.starts
      rw [hcollect]
      simpa [tell, Pool.finish, Event.started?, List.filterMap_cons] using hold }

end Settled

/-! ## The timed run -/

/-- Which of two timed jobs ends first. -/
def compareFinish (a b : Job × Span) : Ordering :=
  compare a.2.finish b.2.finish

/-- The waiting jobs with their spans, where `busy` are the ends of those that hold a slot. -/
def timed (slots : Nat) (busy : List Nat) (waiting : List Job) : List (Job × Span) :=
  waiting.zip (timetableFrom slots busy (waiting.map fun job => job.task.duration))

/-- Of some timed jobs, the first that ends comes first in the order of ends, if those that are
still to come do not end before it. -/
theorem sort_compareFinish {before after later : List (Job × Span)} {first : Job × Span}
    (hbefore : ∀ x ∈ before, first.2.finish < x.2.finish)
    (hafter : ∀ x ∈ after, first.2.finish ≤ x.2.finish)
    (hlater : ∀ x ∈ later, first.2.finish ≤ x.2.finish) :
    Order.sort compareFinish (before ++ first :: after ++ later) =
      first :: Order.sort compareFinish (before ++ after ++ later) := by
  rw [List.append_assoc, List.append_assoc, List.cons_append]
  refine Order.sort_selects (fun x hx => Nat.compare_eq_gt.mpr (hbefore x hx)) fun x hx => ?_
  refine Nat.compare_ne_gt.mpr ?_
  rcases List.mem_append.mp hx with hx | hx
  · exact hafter x hx
  · exact hlater x hx

/-- When no task waits, those that run end in the order of their ends. -/
theorem Settled.drain {n : Nat} {runners : List (Job × Span)} (hn : runners.length = n)
    (h : Settled limit cwd owners tasks [] (runners.map Prod.fst) outcomes s) :
    ∃ s', Settled limit cwd owners tasks [] []
      (outcomes ++ (Order.sort compareFinish runners).map fun x => outcomeOf cwd owners x.1)
      s' := by
  induction n generalizing runners outcomes s with
  | zero =>
    obtain rfl := List.length_eq_zero_iff.mp hn
    exact ⟨s, by simpa [Order.sort] using h⟩
  | succ n ih =>
    obtain ⟨before, first, after, rfl, hbefore, hafter⟩ :=
      Order.exists_first_least (fun x : Job × Span => x.2.finish)
        (List.ne_nil_of_length_eq_add_one hn)
    rw [List.map_append, List.map_cons] at h
    obtain ⟨s₁, h₁⟩ := h.complete
    rw [← List.map_append] at h₁
    have hlength : (before ++ after).length = n := by
      simp only [List.length_append, List.length_cons] at hn ⊢
      omega
    obtain ⟨s₂, h₂⟩ := ih hlength h₁
    have hsort := sort_compareFinish hbefore hafter (fun x hx => absurd hx List.not_mem_nil)
    rw [List.append_nil, List.append_nil] at hsort
    exact ⟨s₂, by simpa [hsort] using h₂⟩

/-- `busy` are the ends of the jobs that run, in ascending order. -/
structure IsBusy (busy : List Nat) (runners : List (Job × Span)) : Prop where
  ends : busy.Perm (runners.map fun x => x.2.finish)
  sorted : busy.Pairwise (Order.NotAfter compare)

namespace IsBusy

variable {busy : List Nat} {runners : List (Job × Span)}

theorem length_eq (h : IsBusy busy runners) : busy.length = runners.length := by
  rw [h.ends.length_eq, List.length_map]

theorem add (h : IsBusy busy runners) (x : Job × Span) :
    IsBusy (Order.insert compare x.2.finish busy) (runners ++ [x]) where
  ends := by
    rw [List.map_append]
    refine (Order.insert_perm x.2.finish busy).trans ?_
    exact (h.ends.cons x.2.finish).trans (List.perm_append_singleton _ _).symm
  sorted := Order.insert_pairwise h.sorted

theorem remove {time : Nat} {before after : List (Job × Span)} {first : Job × Span}
    (h : IsBusy (time :: busy) (before ++ first :: after))
    (hbefore : ∀ x ∈ before, first.2.finish < x.2.finish)
    (hafter : ∀ x ∈ after, first.2.finish ≤ x.2.finish) :
    time = first.2.finish ∧ IsBusy busy (before ++ after) := by
  obtain ⟨htime, hsorted⟩ := List.pairwise_cons.mp h.sorted
  -- Both are a least end of the same jobs, so they are equal.
  have hmoved : (time :: busy).Perm
      (first.2.finish :: (before ++ after).map fun x => x.2.finish) := by
    refine h.ends.trans ?_
    rw [List.map_append, List.map_cons, List.map_append]
    exact List.perm_middle
  have hle : first.2.finish ≤ time := by
    have hmem := hmoved.mem_iff.mp List.mem_cons_self
    rcases List.mem_cons.mp hmem with heq | hmem
    · exact heq.ge
    · obtain ⟨x, hx, rfl⟩ := List.mem_map.mp hmem
      rcases List.mem_append.mp hx with hx | hx
      · exact (hbefore x hx).le
      · exact hafter x hx
  have hge : time ≤ first.2.finish := by
    have hmem := hmoved.mem_iff.mpr List.mem_cons_self
    rcases List.mem_cons.mp hmem with heq | hmem
    · exact heq.ge
    · exact Nat.compare_ne_gt.mp (htime _ hmem)
  obtain rfl := Nat.le_antisymm hge hle
  exact ⟨rfl, hmoved.cons_inv, hsorted⟩

end IsBusy

/-- A pool can keep to the timetable. Here `runners` are the jobs that run, in the order of their
starts. -/
theorem Settled.run {runners : List (Job × Span)} {busy : List Nat}
    (h : Settled limit cwd owners tasks waiting (runners.map Prod.fst) outcomes s)
    (hbusy : IsBusy busy runners) (hroom : busy.length ≤ slotsOf limit) :
    ∃ s', Settled limit cwd owners tasks [] []
      (outcomes ++ (Order.sort compareFinish
        (runners ++ timed (slotsOf limit) busy waiting)).map fun x => outcomeOf cwd owners x.1)
      s' := by
  induction waiting generalizing runners busy outcomes s with
  | nil =>
    rw [timed, List.zip_nil_left, List.append_nil]
    exact h.drain rfl
  | cons job waiting ih =>
    have hlength := hbusy.length_eq
    by_cases hfree : busy.length < slotsOf limit
    · -- A slot is free, and the next task starts.
      obtain ⟨s₁, h₁⟩ := h.start (by rwa [List.length_map, ← hlength])
      have hspans : timed (slotsOf limit) busy (job :: waiting) =
          (job, ⟨0, job.task.duration⟩) :: timed (slotsOf limit)
            (Order.insert compare job.task.duration busy) waiting := by
        rw [timed, List.map_cons, timetableFrom_free hfree]
        rfl
      have hmap : runners.map Prod.fst ++ [job] =
          (runners ++ [(job, (⟨0, job.task.duration⟩ : Span))]).map Prod.fst := by simp
      rw [hmap] at h₁
      obtain ⟨s₂, h₂⟩ := ih h₁ (hbusy.add _) (by rw [insert_length]; exact hfree)
      exact ⟨s₂, by simpa [hspans] using h₂⟩
    · -- All slots are busy: the first of the running tasks ends, and the next one starts.
      have hfull : busy.length = slotsOf limit := by omega
      obtain ⟨time, others, rfl⟩ := List.exists_cons_of_ne_nil
        (List.ne_nil_of_length_pos (hfull ▸ slotsOf_pos limit))
      obtain ⟨before, first, after, rfl, hbefore, hafter⟩ :=
        Order.exists_first_least (fun x : Job × Span => x.2.finish)
          (List.ne_nil_of_length_eq_add_one hlength.symm)
      obtain ⟨rfl, hothers⟩ := hbusy.remove hbefore hafter
      have hlater : ∀ x ∈ timed (slotsOf limit) (first.2.finish :: others) (job :: waiting),
          first.2.finish ≤ x.2.finish := by
        refine fun x hx => le_finish_of_mem_timetableFrom (slotsOf_pos limit) hfull ?_ x.2
          (List.of_mem_zip hx).2
        intro finish hfinish
        rcases List.mem_cons.mp hfinish with rfl | hfinish
        · exact le_rfl
        · exact Nat.compare_ne_gt.mp ((List.pairwise_cons.mp hbusy.sorted).1 finish hfinish)
      have hsort := sort_compareFinish hbefore hafter hlater
      have hspans : timed (slotsOf limit) (first.2.finish :: others) (job :: waiting) =
          (job, ⟨first.2.finish, first.2.finish + job.task.duration⟩) :: timed (slotsOf limit)
            (Order.insert compare (first.2.finish + job.task.duration) others) waiting := by
        rw [timed, List.map_cons, timetableFrom_full hfree]
        rfl
      rw [List.map_append, List.map_cons] at h
      obtain ⟨s₁, h₁⟩ := h.complete
      obtain ⟨s₂, h₂⟩ := h₁.start (by
        simp only [List.length_append, List.length_cons, List.length_map] at hlength hfull ⊢
        omega)
      have hmap : before.map Prod.fst ++ after.map Prod.fst ++ [job] =
          (before ++ after ++
            [(job, (⟨first.2.finish, first.2.finish + job.task.duration⟩ : Span))]).map
              Prod.fst := by simp
      rw [hmap] at h₂
      obtain ⟨s₃, h₃⟩ := ih h₂ (hothers.add _) (by rw [insert_length]; exact hroom)
      refine ⟨s₃, ?_⟩
      rw [hsort, hspans]
      simpa using h₃

/-- The timed run of some tasks is one of the runs of a pool. -/
structure IsTimedRun (limit : Nat) (cwd : Path) (owners : Ownership) (tasks : List Task)
    (run : Run) : Prop where
  /-- A pool can reach its end with the same starts and outcomes, in the same order. -/
  taken : ∃ s, Reachable limit cwd owners tasks s ∧ s.Finished ∧ s.outcomes = run.outcomes ∧
    (s.history.filterMap Event.started?).map Prod.snd = run.starts.map Prod.fst
  /-- The outcomes are in the order in which the tasks end. -/
  ends_in_order : run.ends.Pairwise fun a b => a.2 ≤ b.2
  /-- At most as many checkers run at once as there are slots. -/
  peak_le : run.peak ≤ slotsOf limit

theorem ofTasks_isTimedRun (limit : Nat) (cwd : Path) (owners : Ownership) (tasks : List Task) :
    IsTimedRun limit cwd owners tasks (Run.ofTasks limit cwd owners tasks) where
  taken := by
    obtain ⟨jobs, s, htasks, hs⟩ := exists_settled limit cwd owners tasks
    have hbusy : IsBusy [] [] := ⟨List.Perm.refl _, List.Pairwise.nil⟩
    have hnone : Settled limit cwd owners tasks jobs (([] : List (Job × Span)).map Prod.fst) [] s :=
      hs
    obtain ⟨s', hs'⟩ := hnone.run hbusy (Nat.zero_le _)
    refine ⟨s', hs'.reachable, ?_, ?_, ?_⟩
    · exact ⟨hs'.unspawned, hs'.waiting_eq, hs'.running_eq, hs'.ended_eq⟩
    · have hzip : tasks.zip (timetable limit (tasks.map Task.duration)) =
          (timed (slotsOf limit) [] jobs).map fun x => (x.1.task, x.2) := by
        rw [← htasks, List.map_map, timed, timetable, List.zip_map_left]
        rfl
      rw [hs'.outcomes_eq, Run.outcomes, Run.ofTasks, hzip, Order.sort_map, List.map_map,
        List.map_map]
      rfl
    · have hstarts := hs'.starts
      rw [List.map_nil, List.append_nil] at hstarts
      have hlength : tasks.length ≤ (timetable limit (tasks.map Task.duration)).length := by
        rw [timetable, timetableFrom_length, List.length_map]
      rw [hstarts, Run.ofTasks, List.map_map]
      exact (congrArg (List.map Task.project) (List.map_fst_zip hlength)).symm.trans
        (List.map_map ..)
  ends_in_order := by
    have hfinish : Std.TransCmp fun a b : Task × Span => compare a.2.finish b.2.finish :=
      Order.transCmp_on (c := compare) fun x : Task × Span => x.2.finish
    rw [Run.ofTasks, List.pairwise_map]
    exact (Order.sort_pairwise _).imp Nat.compare_ne_gt.mp
  peak_le := peakOf_timetable_le limit _

/-! ## The main result -/

/-- A project that is checked twice: the first checker breaks down after the second has ended. -/
def checkedTwice : List Task :=
  let project := Project.ofFiles (.ofString "/r/tsconfig.json") [.ofString "/r/a.ts"] false
  [⟨project, .broken, 3⟩, ⟨project, .ended ⟨some 0, []⟩, 1⟩]

end Pool

end Typesweep
