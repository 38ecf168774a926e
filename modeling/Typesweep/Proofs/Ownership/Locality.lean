import Typesweep.Proofs.Ownership

/-!
# Other orders and other projects

Projects claim files one after the other, and each claim depends on all earlier ones. Still the
result does not depend on the order in which the projects are given, if no two of them are of the
same configuration: then the claiming order is strict, and there is only one. And a claim does not
cascade. A project more takes files that it covers itself, and no file changes hands between two
others. Nor does a project that got nothing leave a trace: the kept projects alone are shared out in
the same way.

* `deduplicate_eq_of_perm`: the projects in another order.
* `deduplicate_kept`: the kept projects once more.
* `survivorsAfter_insert`: what the projects keep that come after a new one.
* `takesOnlyItsOwn_of_follows`: one project more in a claiming order.
* `deduplicate_takesOnlyItsOwn`: one project more.
-/

namespace Typesweep

variable {projects projects' before after earlier rest front back : List Project}
  {p q added : Project} {file : Path}

/-! ## Another order -/

/-- Projects that are equally specific are of the same configuration. -/
theorem Project.same_of_compareSpecificity (h : p.compareSpecificity q = .eq) :
    p.path.Same q.path := by
  rw [compareSpecificity, Ordering.then_eq_eq] at h
  exact Path.compare_eq_iff.mp h.2

/-- Projects of different configurations are shared out in the same way in whatever order they are
given. -/
theorem deduplicate_eq_of_perm (hpaths : Project.PathsDistinct projects)
    (hperm : projects.Perm projects') : deduplicate projects = deduplicate projects' := by
  have hsort : Project.sortBySpecificity projects = Project.sortBySpecificity projects' :=
    Order.sort_eq_of_perm hperm fun p hp q hq heq =>
      Path.eq_of_pairwise_not_same hpaths hp hq (Project.same_of_compareSpecificity heq)
  rw [deduplicate, deduplicate, hsort]

/-- Two configurations of equal length, and one that is longer; all cover `shared.ts`. -/
def equallyLong : List Project :=
  [.ofFiles (.ofString "/r/b/tsconfig.json") [.ofString "/shared.ts", .ofString "/b.ts"] false,
    .ofFiles (.ofString "/r/a/tsconfig.json") [.ofString "/shared.ts", .ofString "/a.ts"] false,
    .ofFiles (.ofString "/r/long/tsconfig.json") [.ofString "/b.ts"] false]

theorem deduplicate_eq_of_perm_equallyLong :
    Project.PathsDistinct equallyLong ∧ equallyLong.Perm equallyLong.reverse ∧
      deduplicate equallyLong = deduplicate equallyLong.reverse := by
  have hpaths : Project.PathsDistinct equallyLong := by
    unfold Project.PathsDistinct
    decide
  exact ⟨hpaths, (List.reverse_perm _).symm,
    deduplicate_eq_of_perm hpaths (List.reverse_perm _).symm⟩

/-! ## The kept projects once more -/

theorem Project.retain_retain (p : Project) (keep keep' : Path → Bool) :
    (p.retain keep).retain keep' = p.retain fun file => keep' file && keep file := by
  simp only [retain, List.filter_filter]

/-- A pass over the projects that a pass kept keeps all of them with all their files, and leaves the
same claims. -/
theorem claimAll_kept (o : Ownership) (rest : List Project) :
    claimAll o (claimAll o rest).1 = claimAll o rest := by
  induction rest generalizing o with
  | nil => rfl
  | cons p rest ih =>
    rw [claimAll]
    dsimp only
    split
    · next hempty =>
      -- A project that gets nothing claims nothing.
      have hnone : (p.retain fun file => !o.isClaimed file).files = [] := List.isEmpty_iff.mp hempty
      rw [hnone]
      exact ih o
    · next hsome =>
      have hagain : ((p.retain fun file => !o.isClaimed file).retain fun file =>
          !o.isClaimed file) = p.retain fun file => !o.isClaimed file := by
        simp only [Project.retain_retain, Bool.and_self]
      have hpath : (p.retain fun file => !o.isClaimed file).path = p.path := rfl
      rw [claimAll, hagain, hpath]
      dsimp only
      rw [if_neg hsome, ih]

/-- The kept projects are in claiming order, as only their files have changed. -/
theorem sortBySpecificity_kept (projects : List Project) :
    Project.sortBySpecificity (deduplicate projects).1 = (deduplicate projects).1 := by
  have hpaths : ∀ ps : List Project, ps.Pairwise (Order.NotAfter Project.compareSpecificity) ↔
      (ps.map Project.path).Pairwise fun a b =>
        (compare b.byteLength a.byteLength).then (a.compare b) ≠ .gt := by
    intro ps
    rw [List.pairwise_map]
    rfl
  refine Order.sort_eq_self ((hpaths _).mpr ?_)
  exact ((hpaths _).mp (Order.sort_pairwise projects)).sublist (claimAll_paths_sublist {} _)

/-- Sharing out the kept projects again changes neither them nor the owners. -/
theorem deduplicate_kept (projects : List Project) :
    deduplicate (deduplicate projects).1 = deduplicate projects := by
  rw [deduplicate, sortBySpecificity_kept]
  exact claimAll_kept {} (Project.sortBySpecificity projects)

/-! ## One project more -/

/-- The first project that covers a file, if there is one project more. -/
theorem find?_insert (wanted : Project → Bool) :
    (before ++ added :: after).find? wanted =
      (before.find? wanted).or (if wanted added then some added else after.find? wanted) := by
  rw [List.find?_append, List.find?_cons]
  cases wanted added <;> rfl

/-- Of what a project is first for, a project more before it takes what this one covers. -/
theorem Project.firstAfter_insert (q : Project) :
    q.firstAfter (before ++ added :: earlier) =
      (q.firstAfter (before ++ earlier)).retain fun file => !added.covers file := by
  rw [firstAfter, firstAfter, retain_retain]
  refine congrArg q.retain (funext fun file => ?_)
  simp only [List.any_append, List.any_cons, Bool.not_or, Bool.and_left_comm]

theorem Project.isEmpty_retain {keep : Path → Bool} (h : p.isEmpty = true) :
    (p.retain keep).isEmpty = true := by
  rw [isEmpty, List.isEmpty_iff] at h ⊢
  show p.files.filter keep = []
  rw [h, List.filter_nil]

/-- What is left of projects when another one has taken the files that it covers. -/
def leftBy (added : Project) (kept : List Project) : List Project :=
  (kept.map fun q => q.retain fun file => !added.covers file).filter fun q => !q.isEmpty

theorem survivorsAfter_append (earlier before after : List Project) :
    survivorsAfter earlier (before ++ after) =
      survivorsAfter earlier before ++ survivorsAfter (earlier ++ before) after := by
  induction before generalizing earlier with
  | nil => rw [List.append_nil]; rfl
  | cons p before ih =>
    rw [List.cons_append, survivorsAfter_cons, survivorsAfter_cons, ih, List.append_assoc]
    split <;> rfl

/-- The projects that come after a new one lose to it what it covers, and nothing else to anyone. -/
theorem survivorsAfter_insert (before earlier rest : List Project) :
    survivorsAfter (before ++ added :: earlier) rest =
      leftBy added (survivorsAfter (before ++ earlier) rest) := by
  induction rest generalizing earlier with
  | nil => rfl
  | cons q rest ih =>
    have hrest : survivorsAfter (before ++ added :: earlier ++ [q]) rest =
        leftBy added (survivorsAfter (before ++ earlier ++ [q]) rest) := by
      rw [List.append_assoc, List.append_assoc]
      exact ih (earlier ++ [q])
    rw [survivorsAfter_cons, survivorsAfter_cons, hrest, Project.firstAfter_insert]
    by_cases hempty : (q.firstAfter (before ++ earlier)).isEmpty = true
    · rw [if_pos (Project.isEmpty_retain hempty), if_pos hempty]
    · rw [if_neg hempty, leftBy, leftBy, List.map_cons, List.filter_cons]
      cases ((q.firstAfter (before ++ earlier)).retain fun file => !added.covers file).isEmpty <;>
        rfl

/-- What one project more makes of the kept projects and the owners. -/
structure TakesOnlyItsOwn (added : Project) (kept : List Project) (owners : Ownership)
    (kept' : List Project) (owners' : Ownership) : Prop where
  /-- A file that it does not cover keeps its owner. -/
  unchanged : ∀ file, added.covers file = false → owners'.ownerOf? file = owners.ownerOf? file
  /-- A file that it covers keeps its owner or goes to it. -/
  taken : ∀ file, added.covers file = true →
    owners'.ownerOf? file = owners.ownerOf? file ∨ owners'.ownerOf? file = some added.path
  /-- A file that it covers and that belonged to nobody goes to it. -/
  free : ∀ file, added.covers file = true → owners.ownerOf? file = none →
    owners'.ownerOf? file = some added.path
  /-- The projects ahead of it keep their files. Those behind it keep, in the same order, the files
  that it does not cover. -/
  others : ∃ ahead own behind, kept = ahead ++ behind ∧
    (own = [] ∨ ∃ keep, own = [added.retain keep]) ∧ kept' = ahead ++ own ++ leftBy added behind

/-- One project more in a claiming order. -/
theorem takesOnlyItsOwn_of_follows {owners owners' : Ownership}
    (h : owners.Follows (before ++ after)) (h' : owners'.Follows (before ++ added :: after)) :
    TakesOnlyItsOwn added (survivors (before ++ after)) owners
      (survivors (before ++ added :: after)) owners' := by
  have howner : ∀ file, owners.ownerOf? file =
      ((before.find? (·.covers file)).or (after.find? (·.covers file))).map Project.path := by
    intro file
    rw [h file, List.find?_append]
  have howner' : ∀ file, owners'.ownerOf? file =
      ((before.find? (·.covers file)).or (if added.covers file then some added
        else after.find? (·.covers file))).map Project.path := by
    intro file
    rw [h' file, find?_insert]
  refine ⟨fun file hfile => ?_, fun file hfile => ?_, fun file hfile hnone => ?_, ?_⟩
  · rw [howner, howner', hfile, if_neg Bool.false_ne_true]
  · rw [howner, howner', if_pos hfile]
    cases before.find? (·.covers file) with
    | some q => exact .inl rfl
    | none => exact .inr rfl
  · rw [howner, Option.map_eq_none_iff, Option.or_eq_none_iff] at hnone
    rw [howner', if_pos hfile, hnone.1]
    rfl
  · refine ⟨survivors before,
      if (added.firstAfter before).isEmpty then [] else [added.firstAfter before],
      survivorsAfter before after, ?_, ?_, ?_⟩
    · rw [← survivorsAfter_nil, survivorsAfter_append, survivorsAfter_nil, List.nil_append]
    · split
      · exact .inl rfl
      · exact .inr ⟨_, rfl⟩
    · rw [← survivorsAfter_nil, survivorsAfter_append, survivorsAfter_nil, List.nil_append,
        survivorsAfter_cons, survivorsAfter_insert before [] after, List.append_nil,
        List.append_assoc]
      split <;> rfl

/-- A project of another configuration than all others takes files that it covers, and has no other
effect, wherever it stands among them. -/
theorem deduplicate_takesOnlyItsOwn
    (hnew : ∀ q ∈ front ++ back, ¬ q.path.Same added.path) :
    TakesOnlyItsOwn added (deduplicate (front ++ back)).1 (deduplicate (front ++ back)).2
      (deduplicate (front ++ added :: back)).1 (deduplicate (front ++ added :: back)).2 := by
  obtain ⟨hkept, hfollows⟩ := deduplicate_follows (front ++ back)
  obtain ⟨hkept', hfollows'⟩ := deduplicate_follows (front ++ added :: back)
  have hnotMem : added ∉ front ++ back := fun hmem => hnew added hmem rfl
  obtain ⟨before, after, hwithout, hwith⟩ : ∃ before after,
      Project.sortBySpecificity (front ++ back) = before ++ after ∧
        Project.sortBySpecificity (front ++ added :: back) = before ++ added :: after :=
    Order.exists_sort_insert hnotMem
  rw [hwithout] at hkept hfollows
  rw [hwith] at hkept' hfollows'
  rw [hkept, hkept']
  exact takesOnlyItsOwn_of_follows hfollows hfollows'

/-- A longer configuration between two others takes a file from one of them, and one that nobody
covers. -/
theorem deduplicate_takesOnlyItsOwn_equallyLong :
    let front := equallyLong.take 1
    let back := equallyLong.drop 1
    let added := Project.ofFiles (.ofString "/r/longer/tsconfig.json")
      [.ofString "/shared.ts", .ofString "/new.ts"] false
    (∀ q ∈ front ++ back, ¬ q.path.Same added.path) ∧
      TakesOnlyItsOwn added (deduplicate (front ++ back)).1 (deduplicate (front ++ back)).2
        (deduplicate (front ++ added :: back)).1 (deduplicate (front ++ added :: back)).2 := by
  intro front back added
  have hnew : ∀ q ∈ front ++ back, ¬ q.path.Same added.path := by decide
  exact ⟨hnew, deduplicate_takesOnlyItsOwn hnew⟩

end Typesweep
