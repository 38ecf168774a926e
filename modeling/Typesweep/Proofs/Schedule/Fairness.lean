import Mathlib.Order.Bounds.Basic
import Typesweep.Proofs.Schedule.Timetable

/-!
# Fair timetables

Slots are given out first come, first served: a task starts as soon as fewer of those before it are
unfinished than there are slots. This says when each task starts, so there is one such timetable for
given durations.

* `IsNext`, `IsFair`: the rule for one task, and for tasks one after another.
* `IsFair.noLater`: with more slots, every task starts and ends no later. It goes task by task. That
  of the two timetables each has its own order of ends does not matter, as at no time more of the
  first tasks are unfinished with more slots than with fewer.
* `IsFair.starts_in_order`, `IsFair.isNext`: tasks start in their order, each as soon as it may.
* `timetable_isFair`: `timetable` is fair.
-/

namespace Typesweep

/-- Number of tasks that have not ended at a time, those that have not started among them. -/
def unfinishedAt (spans : List Span) (time : Nat) : Nat :=
  spans.countP fun s => time < s.finish

/-- One span starts and ends no later than another. -/
structure Span.NoLater (a b : Span) : Prop where
  start_le : a.start ≤ b.start
  finish_le : a.finish ≤ b.finish

/-- When a task of a given duration is the next to get a slot: at the first time at which fewer of
those before it are unfinished than there are slots. -/
structure IsNext (slots : Nat) (before : List Span) (duration : Nat) (span : Span) : Prop where
  finish_eq : span.finish = span.start + duration
  free : unfinishedAt before span.start < slots
  busy_until : ∀ time < span.start, slots ≤ unfinishedAt before time

/-- The spans of tasks of the given durations when each one is the next to get a slot after those
before it. -/
inductive IsFair (slots : Nat) : List Nat → List Span → Prop
  | nil : IsFair slots [] []
  | concat {durations : List Nat} {before : List Span} {duration : Nat} {span : Span} :
      IsFair slots durations before → IsNext slots before duration span →
      IsFair slots (durations ++ [duration]) (before ++ [span])

/-! ## Unfinished tasks -/

section Unfinished

variable {spans spans' : List Span}

theorem unfinishedAt_append (spans spans' : List Span) (time : Nat) :
    unfinishedAt (spans ++ spans') time = unfinishedAt spans time + unfinishedAt spans' time :=
  List.countP_append

theorem unfinishedAt_le_append (spans spans' : List Span) (time : Nat) :
    unfinishedAt spans time ≤ unfinishedAt (spans ++ spans') time := by
  rw [unfinishedAt_append]
  exact Nat.le_add_right _ _

theorem unfinishedAt_eq_countP (spans : List Span) (time : Nat) :
    unfinishedAt spans time = (spans.map Span.finish).countP (time < ·) := by
  rw [List.countP_map]
  rfl

theorem unfinishedAt_noLater (h : List.Forall₂ Span.NoLater spans spans') (time : Nat) :
    unfinishedAt spans time ≤ unfinishedAt spans' time := by
  induction h with
  | nil => exact le_rfl
  | cons hspan _ ih =>
    have hfinish := hspan.finish_le
    simp only [unfinishedAt, List.countP_cons, decide_eq_true_eq] at ih ⊢
    split <;> split <;> omega

end Unfinished

/-! ## The next task -/

namespace IsNext

variable {slots slots' duration : Nat} {before before' : List Span} {span span' : Span}

theorem noLater (h : IsNext slots before duration span) (h' : IsNext slots' before' duration span')
    (hslots : slots ≤ slots') (hbefore : List.Forall₂ Span.NoLater before' before) :
    span'.NoLater span := by
  have hstart : span'.start ≤ span.start := by
    by_contra hlater
    have hfree := h.free
    have hbusy := h'.busy_until span.start (Nat.lt_of_not_le hlater)
    have hcount := unfinishedAt_noLater hbefore span.start
    omega
  refine ⟨hstart, ?_⟩
  rw [h.finish_eq, h'.finish_eq]
  exact Nat.add_le_add_right hstart duration

/-- A task starts at once if there are fewer before it than there are slots. -/
theorem start_eq_zero (h : IsNext slots before duration span) (hfew : before.length < slots) :
    span.start = 0 := by
  by_contra hstart
  have hbusy := h.busy_until 0 (Nat.pos_of_ne_zero hstart)
  have hcount : unfinishedAt before 0 ≤ before.length := List.countP_le_length
  omega

/-- A task starts at the earliest time at which there is a slot that those before it do not need. -/
theorem isLeast (h : IsNext slots before duration span) :
    IsLeast {time | unfinishedAt before time ≤ slots - 1} span.start := by
  have hfree := h.free
  constructor
  · show unfinishedAt before span.start ≤ slots - 1
    omega
  · intro time htime
    by_contra hearlier
    have hbusy := h.busy_until time (Nat.lt_of_not_le hearlier)
    have hcount : unfinishedAt before time ≤ slots - 1 := htime
    omega

theorem unique (h : IsNext slots before duration span) (h' : IsNext slots before duration span') :
    span = span' := by
  obtain ⟨start, finish⟩ := span
  obtain ⟨start', finish'⟩ := span'
  obtain rfl : start = start' := h.isLeast.unique h'.isLeast
  obtain rfl : finish = finish' := h.finish_eq.trans h'.finish_eq.symm
  rfl

end IsNext

/-! ## All tasks -/

namespace IsFair

variable {slots slots' duration : Nat} {durations : List Nat} {before spans spans' : List Span}
  {span : Span}

theorem length_eq (h : IsFair slots durations spans) : spans.length = durations.length := by
  induction h with
  | nil => rfl
  | concat _ _ ih => simp [ih]

/-- The last task of a fair timetable is the next one after the others. -/
theorem eq_concat (h : IsFair slots (durations ++ [duration]) spans) :
    ∃ before span, spans = before ++ [span] ∧ IsFair slots durations before ∧
      IsNext slots before duration span := by
  generalize hall : durations ++ [duration] = all at h
  cases h with
  | nil => exact absurd hall (by simp)
  | @concat durations' before' duration' span' hbefore hnext =>
    obtain ⟨rfl, hlast⟩ := List.append_inj' hall rfl
    obtain rfl := List.head_eq_of_cons_eq hlast
    exact ⟨before', span', rfl, hbefore, hnext⟩

theorem noLater (h : IsFair slots durations spans) (h' : IsFair slots' durations spans')
    (hslots : slots ≤ slots') : List.Forall₂ Span.NoLater spans' spans := by
  induction h generalizing spans' with
  | nil =>
    obtain rfl := List.length_eq_zero_iff.mp h'.length_eq
    exact List.Forall₂.nil
  | concat _ hnext ih =>
    obtain ⟨before', span', rfl, hbefore', hnext'⟩ := h'.eq_concat
    have hbefore := ih hbefore'
    have hspan := hnext.noLater hnext' hslots hbefore
    exact List.rel_append hbefore (List.Forall₂.cons hspan List.Forall₂.nil)

theorem unique (h : IsFair slots durations spans) (h' : IsFair slots durations spans') :
    spans = spans' := by
  induction h generalizing spans' with
  | nil => exact (List.length_eq_zero_iff.mp h'.length_eq).symm
  | concat _ hnext ih =>
    obtain ⟨before', span', rfl, hbefore', hnext'⟩ := h'.eq_concat
    obtain rfl := ih hbefore'
    rw [hnext.unique hnext']

theorem finish_eq (h : IsFair slots durations spans) :
    List.Forall₂ (fun duration span => span.finish = span.start + duration) durations spans := by
  induction h with
  | nil => exact List.Forall₂.nil
  | concat _ hnext ih =>
    exact List.rel_append ih (List.Forall₂.cons hnext.finish_eq List.Forall₂.nil)

/-- Until a task starts, those of its timetable need all slots. -/
theorem busy_until (h : IsFair slots durations spans) :
    ∀ span ∈ spans, ∀ time < span.start, slots ≤ unfinishedAt spans time := by
  induction h with
  | nil => exact fun span hspan => absurd hspan List.not_mem_nil
  | @concat _ before _ last _ hnext ih =>
    intro span hspan time htime
    refine le_trans ?_ (unfinishedAt_le_append before [last] time)
    rcases List.mem_append.mp hspan with hspan | hspan
    · exact ih span hspan time htime
    · obtain rfl := List.mem_singleton.mp hspan
      exact hnext.busy_until time htime

/-- Tasks start in their order: while one waits, those after it find no slot. -/
theorem starts_in_order (h : IsFair slots durations spans) :
    spans.Pairwise fun a b => a.start ≤ b.start := by
  induction h with
  | nil => exact List.Pairwise.nil
  | @concat _ before _ last hbefore hnext ih =>
    refine List.pairwise_append.mpr ⟨ih, List.pairwise_singleton _ _, ?_⟩
    intro span hspan last' hlast
    obtain rfl := List.mem_singleton.mp hlast
    by_contra hearlier
    have hbusy := hbefore.busy_until span hspan last'.start (Nat.lt_of_not_le hearlier)
    exact absurd hnext.free (Nat.not_lt_of_le hbusy)

/-- Every task is the next one after those before it. -/
theorem isNext {after : List Span} (h : IsFair slots durations (before ++ span :: after)) :
    ∃ duration, IsNext slots before duration span := by
  generalize hall : before ++ span :: after = all at h
  induction h generalizing after with
  | nil => exact absurd hall (by simp)
  | @concat _ before' duration last _ hnext ih =>
    rcases List.eq_nil_or_concat after with rfl | ⟨after', last', rfl⟩
    · obtain ⟨rfl, hlast⟩ := List.append_inj' hall rfl
      obtain rfl := List.head_eq_of_cons_eq hlast
      exact ⟨duration, hnext⟩
    · have hassoc : before ++ span :: (after' ++ [last']) =
          (before ++ span :: after') ++ [last'] := by simp
      rw [List.concat_eq_append, hassoc] at hall
      exact ih (List.append_inj' hall rfl).1

end IsFair

/-! ## The timetable is fair -/

/-- `busy` are the ends of the tasks that hold a slot and `released` those of the tasks that have
handed theirs on, after some tasks have their spans. -/
structure Holds (slots : Nat) (busy released : List Nat) (before : List Span) : Prop where
  ends : (before.map Span.finish).Perm (busy ++ released)
  sorted : busy.Pairwise (Order.NotAfter compare)
  length_le : busy.length ≤ slots
  released_le : ∀ a ∈ released, ∀ b ∈ busy, a ≤ b
  full : released ≠ [] → busy.length = slots

namespace Holds

variable {slots : Nat} {busy released : List Nat} {before : List Span}

theorem unfinishedAt_eq (h : Holds slots busy released before) (time : Nat) :
    unfinishedAt before time = busy.countP (time < ·) + released.countP (time < ·) := by
  rw [unfinishedAt_eq_countP, h.ends.countP_eq, List.countP_append]

theorem initial : Holds slots [] [] [] where
  ends := List.Perm.refl _
  sorted := List.Pairwise.nil
  length_le := Nat.zero_le _
  released_le _ ha := absurd ha List.not_mem_nil
  full h := absurd rfl h

theorem released_eq_nil (h : Holds slots busy released before) (hfree : busy.length < slots) :
    released = [] := by
  by_contra hreleased
  exact absurd (h.full hreleased) (Nat.ne_of_lt hfree)

/-- A task that finds a free slot starts at once. -/
theorem isNext_free (h : Holds slots busy released before) (duration : Nat)
    (hfree : busy.length < slots) : IsNext slots before duration ⟨0, duration⟩ where
  finish_eq := (Nat.zero_add duration).symm
  free := by
    have hcount : busy.countP (fun finish => decide (0 < finish)) ≤ busy.length :=
      List.countP_le_length
    show unfinishedAt before 0 < slots
    rw [h.unfinishedAt_eq, h.released_eq_nil hfree, List.countP_nil]
    omega
  busy_until time htime := absurd htime (Nat.not_lt_zero time)

theorem take (h : Holds slots busy released before) (duration : Nat)
    (hfree : busy.length < slots) :
    Holds slots (Order.insert compare duration busy) [] (before ++ [⟨0, duration⟩]) where
  ends := by
    rw [List.append_nil, List.map_append]
    refine (List.perm_append_singleton _ _).trans ?_
    refine (h.ends.cons duration).trans ?_
    rw [h.released_eq_nil hfree, List.append_nil]
    exact (Order.insert_perm duration busy).symm
  sorted := Order.insert_pairwise h.sorted
  length_le := by
    rw [insert_length]
    exact hfree
  released_le _ ha := absurd ha List.not_mem_nil
  full hreleased := absurd rfl hreleased

/-- The first of the tasks that hold a slot ends before the others. -/
theorem first_le {first : Nat} (h : Holds slots (first :: busy) released before) :
    ∀ b ∈ busy, first ≤ b := by
  intro b hb
  exact Nat.compare_ne_gt.mp ((List.pairwise_cons.mp h.sorted).1 b hb)

/-- A task that finds no free slot starts when the first of those that hold one ends. -/
theorem isNext_full {first : Nat} (h : Holds slots (first :: busy) released before)
    (duration : Nat) (hfull : (first :: busy).length = slots) :
    IsNext slots before duration ⟨first, first + duration⟩ where
  finish_eq := rfl
  free := by
    -- Of those that hold a slot, the first does not need it any more.
    have hgone : released.countP (fun finish => decide (first < finish)) = 0 := by
      refine List.countP_eq_zero.mpr fun a ha => ?_
      simpa using h.released_le a ha first List.mem_cons_self
    have hcount : busy.countP (fun finish => decide (first < finish)) ≤ busy.length :=
      List.countP_le_length
    rw [List.length_cons] at hfull
    simp only [h.unfinishedAt_eq, List.countP_cons, hgone, Nat.lt_irrefl, decide_false,
      Bool.false_eq_true, if_false]
    omega
  busy_until time htime := by
    have hall : (first :: busy).countP (fun finish => decide (time < finish)) =
        (first :: busy).length := by
      refine List.countP_eq_length.mpr fun b hb => decide_eq_true ?_
      rcases List.mem_cons.mp hb with rfl | hb
      · exact htime
      · exact htime.trans_le (h.first_le b hb)
    rw [h.unfinishedAt_eq, hall, hfull]
    exact Nat.le_add_right _ _

theorem handOn {first : Nat} (h : Holds slots (first :: busy) released before) (duration : Nat)
    (hfull : (first :: busy).length = slots) :
    Holds slots (Order.insert compare (first + duration) busy) (first :: released)
      (before ++ [⟨first, first + duration⟩]) where
  ends := by
    rw [List.map_append]
    refine (List.perm_append_singleton _ _).trans ?_
    refine (h.ends.cons (first + duration)).trans ?_
    refine List.Perm.trans ?_ ((Order.insert_perm (first + duration) busy).append_right _).symm
    exact (List.perm_middle.symm).cons _
  sorted := Order.insert_pairwise (List.pairwise_cons.mp h.sorted).2
  length_le := by
    rw [insert_length]
    exact h.length_le
  released_le := by
    intro a ha b hb
    have hle : a ≤ first := by
      rcases List.mem_cons.mp ha with rfl | ha
      · exact le_rfl
      · exact h.released_le a ha first List.mem_cons_self
    refine hle.trans ?_
    rcases List.mem_cons.mp ((Order.insert_perm _ _).mem_iff.mp hb) with rfl | hb
    · exact Nat.le_add_right first duration
    · exact h.first_le b hb
  full _ := by
    rw [insert_length]
    exact hfull

end Holds

theorem timetableFrom_isFair {slots : Nat} {before : List Span}
    {settled durations busy released : List Nat} (hslots : 0 < slots)
    (h : Holds slots busy released before) (hbefore : IsFair slots settled before) :
    IsFair slots (settled ++ durations) (before ++ timetableFrom slots busy durations) := by
  induction durations generalizing settled before busy released with
  | nil =>
    rw [timetableFrom, List.append_nil, List.append_nil]
    exact hbefore
  | cons duration durations ih =>
    by_cases hfree : busy.length < slots
    · rw [timetableFrom_free hfree, List.append_cons, List.append_cons before]
      exact ih (h.take duration hfree) (hbefore.concat (h.isNext_free duration hfree))
    · have hfull : busy.length = slots := Nat.le_antisymm h.length_le (Nat.le_of_not_lt hfree)
      obtain ⟨first, others, rfl⟩ := List.exists_cons_of_ne_nil
        (List.ne_nil_of_length_pos (hfull ▸ hslots))
      rw [timetableFrom_full hfree, List.append_cons, List.append_cons before]
      exact ih (h.handOn duration hfull) (hbefore.concat (h.isNext_full duration hfull))

theorem timetable_isFair (limit : Nat) (durations : List Nat) :
    IsFair (slotsOf limit) durations (timetable limit durations) :=
  timetableFrom_isFair (Pool.slotsOf_pos limit) Holds.initial IsFair.nil

end Typesweep
