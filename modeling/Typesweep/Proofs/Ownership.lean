import Mathlib.Data.List.Flatten
import Typesweep.Ownership
import Typesweep.Proofs.Order
import Typesweep.Proofs.Path.Order

/-!
# Every file has one owner

What `deduplicate` gives, said without the map that it fills. The projects are put in claiming
order (`IsClaimingOrder`). A file belongs to the first project of that order that covers it, and the
projects that remain are those that are first for some file (`survivors`), each with just these
files (`IsPartition`).

* `sortBySpecificity_isClaimingOrder`: the order.
* `claimAll_spec`: what one pass over a list of projects does to a map that an earlier pass left.
* `deduplicate_partitions`: the main result.
* `covers_iff_owns`: what the kept projects list, if all are of different configurations.
-/

namespace Typesweep

/-! ## Coverage -/

namespace Project

/-- Whether the project covers a file. -/
def covers (p : Project) (file : Path) : Bool :=
  p.files.any fun f => decide (f.Same file)

/-- The files are in the order of paths, each once, as `ofFiles` makes them. -/
def FilesSorted (p : Project) : Prop :=
  ∃ files, p.files = Path.sortedDistinct files

/-- No file is listed twice, in whatever spelling. -/
def FilesDistinct (p : Project) : Prop :=
  p.files.Pairwise fun f g => ¬ f.Same g

theorem ofFiles_filesSorted (path : Path) (files : List Path) (noEmit : Bool) :
    (ofFiles path files noEmit).FilesSorted :=
  ⟨files, rfl⟩

theorem FilesSorted.filesDistinct {p : Project} (h : p.FilesSorted) : p.FilesDistinct := by
  obtain ⟨files, hfiles⟩ := h
  unfold FilesDistinct
  rw [hfiles]
  exact (Order.sortDistinct_pairwise files).imp Path.not_same_of_compare_lt

theorem covers_iff {p : Project} {file : Path} :
    p.covers file = true ↔ ∃ f ∈ p.files, f.Same file := by
  simp [covers]

theorem covers_congr {f g : Path} (h : f.Same g) (p : Project) : p.covers f = p.covers g := by
  unfold covers
  simp only [h.congr_right]

theorem mem_retain {p : Project} {keep : Path → Bool} {file : Path} :
    file ∈ (p.retain keep).files ↔ file ∈ p.files ∧ keep file = true :=
  List.mem_filter

end Project

/-! ## The claiming order -/

namespace Project

/-- `p` is at least as specific as `q`: its path is longer, or just as long and not after that of
`q`. -/
def AtLeastAsSpecific (p q : Project) : Prop :=
  q.path.byteLength < p.path.byteLength ∨
    q.path.byteLength = p.path.byteLength ∧ p.path.le q.path = true

/-- Whether two projects are equally specific. -/
def equallySpecific (p q : Project) : Bool :=
  decide (p.path.byteLength = q.path.byteLength) && decide (p.path.Same q.path)

end Project

/-- `order` has the projects of `projects`, the more specific ones first; those that are equally
specific stand as they stood. -/
structure IsClaimingOrder (projects order : List Project) : Prop where
  perm : order.Perm projects
  descending : order.Pairwise Project.AtLeastAsSpecific
  stable : ∀ p : Project, order.filter p.equallySpecific = projects.filter p.equallySpecific

namespace Project

instance : Std.TransCmp compareSpecificity := by
  have hnat : Std.TransCmp fun m n : Nat => compare n m := Std.TransCmp.opposite
  have hlength : Std.TransCmp fun p q : Project => compare q.path.byteLength p.path.byteLength :=
    Order.transCmp_on (c := fun m n : Nat => compare n m) fun p : Project => p.path.byteLength
  have hpath : Std.TransCmp fun p q : Project => p.path.compare q.path :=
    Order.transCmp_on Project.path
  exact inferInstanceAs (Std.TransCmp (compareLex (fun p q : Project =>
    compare q.path.byteLength p.path.byteLength) fun p q => p.path.compare q.path))

theorem atLeastAsSpecific_of_notAfter {p q : Project}
    (h : Order.NotAfter compareSpecificity p q) : p.AtLeastAsSpecific q := by
  unfold Order.NotAfter compareSpecificity at h
  unfold AtLeastAsSpecific Path.le
  rcases Nat.lt_trichotomy q.path.byteLength p.path.byteLength with hlt | heq | hgt
  · exact .inl hlt
  · rw [Nat.compare_eq_eq.mpr heq, Ordering.eq_then] at h
    exact .inr ⟨heq, by simpa using h⟩
  · rw [Nat.compare_eq_gt.mpr hgt] at h
    exact absurd rfl h

theorem equallySpecific_eq (p q : Project) :
    p.equallySpecific q = decide (p.compareSpecificity q = .eq) := by
  have hiff : p.compareSpecificity q = .eq ↔
      p.path.byteLength = q.path.byteLength ∧ p.path.Same q.path := by
    rw [compareSpecificity, Ordering.then_eq_eq, Path.compare_eq_iff, Nat.compare_eq_eq]
    exact and_congr_left' eq_comm
  rw [equallySpecific, ← Bool.decide_and]
  exact decide_eq_decide.mpr hiff.symm

theorem sortBySpecificity_isClaimingOrder (projects : List Project) :
    IsClaimingOrder projects (sortBySpecificity projects) where
  perm := Order.sort_perm projects
  descending := (Order.sort_pairwise projects).imp atLeastAsSpecific_of_notAfter
  stable p := by
    rw [funext fun q => equallySpecific_eq p q]
    exact Order.filter_sort p projects

end Project

/-! ## The remaining projects -/

/-- The project with those files that none of the earlier projects covers. -/
def Project.firstAfter (earlier : List Project) (p : Project) : Project :=
  p.retain fun file => !earlier.any (·.covers file)

/-- The projects of `rest`, which `earlier` comes before, each with the files that it is the first
to cover; those that are first for none are left out. -/
def survivorsAfter (earlier rest : List Project) : List Project :=
  (rest.mapIdx fun i p => p.firstAfter (earlier ++ rest.take i)).filter fun p => !p.isEmpty

/-- The projects of an order, each with the files that it is the first to cover; those that are
first for none are left out. -/
def survivors (order : List Project) : List Project :=
  (order.mapIdx fun i p => p.firstAfter (order.take i)).filter fun p => !p.isEmpty

/-- The files of `projects` are shared out: `kept` are the projects that got some, and `owners` says
who got what, where `order` is the order of claiming. -/
structure IsPartition (projects order kept : List Project) (owners : Ownership) : Prop where
  /-- The owner of a file is the first project that covers it. -/
  owner : ∀ file, owners.ownerOf? file = (order.find? (·.covers file)).map Project.path
  /-- A file without owner is one that no project covers. -/
  unowned : ∀ file, owners.ownerOf? file = none ↔ ∀ p ∈ projects, p.covers file = false
  /-- The kept projects are those that are first for some file, each with just these files. -/
  kept_eq : kept = survivors order
  /-- No two kept projects share a file. -/
  disjoint : kept.Pairwise fun p q => ∀ f ∈ p.files, ∀ g ∈ q.files, ¬ f.Same g
  /-- The kept projects together cover what all projects cover. -/
  union : ∀ file, (∃ p ∈ kept, p.covers file = true) ↔ ∃ p ∈ projects, p.covers file = true
  /-- No file is claimed twice. -/
  claimed_once : owners.claims.Pairwise fun c d => ¬ c.1.Same d.1
  /-- As many files are claimed as the kept projects have. -/
  size : owners.size = (kept.flatMap Project.files).length

theorem survivorsAfter_nil (rest : List Project) : survivorsAfter [] rest = survivors rest := rfl

theorem survivorsAfter_cons (earlier rest : List Project) (p : Project) :
    survivorsAfter earlier (p :: rest) =
      if (p.firstAfter earlier).isEmpty then survivorsAfter (earlier ++ [p]) rest
      else p.firstAfter earlier :: survivorsAfter (earlier ++ [p]) rest := by
  unfold survivorsAfter
  rw [List.mapIdx_cons, List.filter_cons]
  simp only [List.take_zero, List.append_nil, List.take_succ_cons, List.append_assoc,
    List.singleton_append]
  cases (p.firstAfter earlier).isEmpty <;> rfl

/-! ## Claims -/

namespace Ownership

theorem ownerOf?_eq_none_iff {o : Ownership} {file : Path} :
    o.ownerOf? file = none ↔ ∀ c ∈ o.claims, ¬ c.1.Same file := by
  simp [ownerOf?]

theorem not_isClaimed_iff {o : Ownership} {file : Path} :
    o.isClaimed file = false ↔ ∀ c ∈ o.claims, ¬ c.1.Same file := by
  rw [← ownerOf?_eq_none_iff, isClaimed]
  cases o.ownerOf? file <;> simp

theorem ownerOf?_congr {f g : Path} (h : f.Same g) (o : Ownership) :
    o.ownerOf? f = o.ownerOf? g := by
  simp only [ownerOf?, h.congr_right]

/-- A claim changes the owner of just the files that it names and that nobody has claimed. -/
theorem ownerOf?_claim (o : Ownership) (config : Path) (files : List Path) (file : Path) :
    (o.claim config files).ownerOf? file =
      (o.ownerOf? file).or (if ∃ f ∈ files, f.Same file then some config else none) := by
  induction files generalizing o with
  | nil => simp [claim]
  | cons f files ih =>
    have hstep : o.claim config (f :: files) =
        (if o.isClaimed f then o else ⟨o.claims ++ [(f, config)]⟩).claim config files := rfl
    have hfirst : (if o.isClaimed f then o else ⟨o.claims ++ [(f, config)]⟩).ownerOf? file =
        (o.ownerOf? file).or (if f.Same file then some config else none) := by
      split
      · next hclaimed =>
        by_cases hsame : f.Same file
        · rw [isClaimed, ownerOf?_congr hsame] at hclaimed
          rw [Option.or_of_isSome hclaimed]
        · rw [if_neg hsame, Option.or_none]
      · rw [ownerOf?, List.find?_append, Option.map_or]
        by_cases hsame : f.Same file <;> simp [ownerOf?, hsame]
    rw [hstep, ih, hfirst, Option.or_assoc]
    by_cases hsame : f.Same file <;> simp [hsame]

/-- Claiming distinct files that nobody has claimed claims each of them. -/
theorem claims_claim {config : Path} {files : List Path} {o : Ownership}
    (hdistinct : files.Pairwise fun f g => ¬ f.Same g)
    (hfree : ∀ f ∈ files, o.isClaimed f = false) :
    (o.claim config files).claims = o.claims ++ files.map fun f => (f, config) := by
  induction files generalizing o with
  | nil => simp [claim]
  | cons f files ih =>
    obtain ⟨hf, hfiles⟩ := List.pairwise_cons.mp hdistinct
    have hfirst : o.isClaimed f = false := hfree f List.mem_cons_self
    have hstep : o.claim config (f :: files) =
        Ownership.claim ⟨o.claims ++ [(f, config)]⟩ config files := by
      simp [claim, hfirst]
    rw [hstep, ih hfiles]
    · simp
    · -- The claim of `f` does not claim any of the others, as they are distinct from it.
      intro g hg
      rw [not_isClaimed_iff]
      intro c hc
      rcases List.mem_append.mp hc with hc | hc
      · exact not_isClaimed_iff.mp (hfree g (List.mem_cons_of_mem f hg)) c hc
      · rw [List.mem_singleton.mp hc]
        exact hf g hg

/-- The claims are those of the projects of a list, each file going to the first that covers it. -/
def Follows (o : Ownership) (earlier : List Project) : Prop :=
  ∀ file, o.ownerOf? file = (earlier.find? (·.covers file)).map Project.path

theorem Follows.isClaimed_eq {o : Ownership} {earlier : List Project} (h : o.Follows earlier)
    (file : Path) : o.isClaimed file = earlier.any (·.covers file) := by
  rw [isClaimed, h file, Option.isSome_map, Bool.eq_iff_iff, List.find?_isSome, List.any_eq_true]

end Ownership

/-! ## One pass over the projects -/

section Pass

variable {o : Ownership} {earlier : List Project} {p : Project}

/-- What a project gets when the projects of `earlier` have claimed. -/
theorem retain_eq_firstAfter (h : o.Follows earlier) :
    (p.retain fun file => !o.isClaimed file) = p.firstAfter earlier := by
  simp only [Project.firstAfter, h.isClaimed_eq]

theorem free_of_mem_firstAfter (h : o.Follows earlier) {f : Path}
    (hf : f ∈ (p.firstAfter earlier).files) : o.isClaimed f = false := by
  rw [h.isClaimed_eq]
  simpa using (Project.mem_retain.mp hf).2

theorem firstAfter_distinct (h : p.FilesDistinct) : (p.firstAfter earlier).FilesDistinct :=
  List.Pairwise.filter _ h

/-- The claims after the turn of `p`. -/
theorem claims_turn (h : o.Follows earlier) (hp : p.FilesDistinct) :
    (o.claim p.path (p.firstAfter earlier).files).claims =
      o.claims ++ (p.firstAfter earlier).files.map fun f => (f, p.path) :=
  Ownership.claims_claim (firstAfter_distinct hp) fun _ hf => free_of_mem_firstAfter h hf

/-- After the turn of `p` the claims are those of one project more. A file that an earlier project
covers keeps its owner; one that none covers goes to `p` if `p` covers it. -/
theorem follows_turn (h : o.Follows earlier) (p : Project) :
    (o.claim p.path (p.firstAfter earlier).files).Follows (earlier ++ [p]) := by
  intro file
  rw [Ownership.ownerOf?_claim, h file, List.find?_append, Option.map_or]
  cases hfind : earlier.find? (·.covers file) with
  | some q => rfl
  | none =>
    have hnone : ∀ q ∈ earlier, q.covers file = false := by simpa using hfind
    -- What `p` claims can be another spelling of the file.
    have hmine : (∃ f ∈ (p.firstAfter earlier).files, f.Same file) ↔ p.covers file = true := by
      rw [Project.covers_iff]
      refine exists_congr fun f => and_congr_left fun hsame => ?_
      rw [Project.firstAfter, Project.mem_retain, and_iff_left]
      simpa [Project.covers_congr hsame] using hnone
    simp [hmine, List.find?_cons]
    cases p.covers file <;> rfl

/-- No file is claimed twice after the turn of `p` if none was before. -/
theorem claimed_once_turn (h : o.Follows earlier) (hp : p.FilesDistinct)
    (honce : o.claims.Pairwise fun c d => ¬ c.1.Same d.1) :
    (o.claim p.path (p.firstAfter earlier).files).claims.Pairwise fun c d => ¬ c.1.Same d.1 := by
  rw [claims_turn h hp, List.pairwise_append]
  refine ⟨honce, ?_, ?_⟩
  · exact List.pairwise_map.mpr (firstAfter_distinct hp)
  · intro c hc d hd
    obtain ⟨f, hf, rfl⟩ := List.mem_map.mp hd
    exact Ownership.not_isClaimed_iff.mp (free_of_mem_firstAfter h hf) c hc

end Pass

/-- The claims that the kept projects stand for. -/
def claimsOf (kept : List Project) : List (Path × Path) :=
  kept.flatMap fun p => p.files.map fun f => (f, p.path)

theorem claimsOf_cons (p : Project) (kept : List Project) :
    claimsOf (p :: kept) = (p.files.map fun f => (f, p.path)) ++ claimsOf kept := rfl

/-- The turn of `p`, and what comes after it. -/
theorem claimAll_cons {o : Ownership} {earlier : List Project} (h : o.Follows earlier) (p : Project)
    (rest : List Project) :
    claimAll o (p :: rest) =
      (if (p.firstAfter earlier).isEmpty
        then (claimAll (o.claim p.path (p.firstAfter earlier).files) rest).1
        else p.firstAfter earlier ::
          (claimAll (o.claim p.path (p.firstAfter earlier).files) rest).1,
      (claimAll (o.claim p.path (p.firstAfter earlier).files) rest).2) := by
  rw [claimAll, retain_eq_firstAfter h]

/-- What a pass keeps and whom the files belong to, also if a project lists a file twice. -/
theorem claimAll_follows {o : Ownership} {earlier : List Project} (h : o.Follows earlier)
    (rest : List Project) :
    (claimAll o rest).1 = survivorsAfter earlier rest ∧
      (claimAll o rest).2.Follows (earlier ++ rest) := by
  induction rest generalizing o earlier with
  | nil => exact ⟨rfl, by rwa [List.append_nil]⟩
  | cons p rest ih =>
    obtain ⟨hkept, hfollows⟩ := ih (follows_turn h p)
    rw [claimAll_cons h, survivorsAfter_cons, ← hkept]
    exact ⟨rfl, by simpa using hfollows⟩

/-- What deduplication keeps and whom the files belong to, for any lists of files. -/
theorem deduplicate_follows (projects : List Project) :
    (deduplicate projects).1 = survivors (Project.sortBySpecificity projects) ∧
      (deduplicate projects).2.Follows (Project.sortBySpecificity projects) := by
  have hnone : ({} : Ownership).Follows [] := fun _ => rfl
  exact claimAll_follows hnone _

/-- What a pass over `rest` gives when the projects of `earlier` have claimed before. -/
structure PassResult (o : Ownership) (earlier rest kept : List Project) (owners : Ownership) :
    Prop where
  kept_eq : kept = survivorsAfter earlier rest
  follows : owners.Follows (earlier ++ rest)
  claims_eq : owners.claims = o.claims ++ claimsOf kept
  claimed_once : owners.claims.Pairwise fun c d => ¬ c.1.Same d.1

/-- The invariant of a pass, carried from one project to the next. -/
theorem claimAll_spec {o : Ownership} {earlier rest : List Project} (h : o.Follows earlier)
    (honce : o.claims.Pairwise fun c d => ¬ c.1.Same d.1)
    (hrest : ∀ p ∈ rest, p.FilesDistinct) :
    PassResult o earlier rest (claimAll o rest).1 (claimAll o rest).2 := by
  obtain ⟨hkept, hfollows⟩ := claimAll_follows h rest
  suffices hclaims : (claimAll o rest).2.claims = o.claims ++ claimsOf (claimAll o rest).1 ∧
      (claimAll o rest).2.claims.Pairwise fun c d => ¬ c.1.Same d.1 from
    ⟨hkept, hfollows, hclaims.1, hclaims.2⟩
  clear hkept hfollows
  induction rest generalizing o earlier with
  | nil => exact ⟨by simp [claimAll, claimsOf], honce⟩
  | cons p rest ih =>
    obtain ⟨hp, hrest⟩ := List.forall_mem_cons.mp hrest
    obtain ⟨hclaims, honce⟩ := ih (follows_turn h p) (claimed_once_turn h hp honce) hrest
    rw [claimAll_cons h]
    refine ⟨?_, honce⟩
    rw [hclaims, claims_turn h hp, List.append_assoc]
    by_cases hempty : (p.firstAfter earlier).isEmpty = true
    · rw [if_pos hempty, List.isEmpty_iff.mp hempty, List.map_nil, List.nil_append]
    · rw [if_neg hempty, claimsOf_cons]
      rfl

/-! ## The partition -/

theorem mem_claimsOf {kept : List Project} {c : Path × Path} :
    c ∈ claimsOf kept ↔ ∃ p ∈ kept, ∃ f ∈ p.files, (f, p.path) = c := by
  simp [claimsOf]

theorem disjoint_of_claimed_once {kept : List Project}
    (h : (claimsOf kept).Pairwise fun c d => ¬ c.1.Same d.1) :
    kept.Pairwise fun p q => ∀ f ∈ p.files, ∀ g ∈ q.files, ¬ f.Same g := by
  refine (List.pairwise_flatMap.mp h).2.imp fun {p q} hpq f hf g hg => ?_
  exact hpq (f, p.path) (List.mem_map_of_mem hf) (g, q.path) (List.mem_map_of_mem hg)

theorem exists_covers_iff_claimed {o : Ownership} {kept : List Project}
    (h : o.claims = claimsOf kept) (file : Path) :
    (∃ p ∈ kept, p.covers file = true) ↔ o.ownerOf? file ≠ none := by
  rw [ne_eq, Ownership.ownerOf?_eq_none_iff, h]
  constructor
  · rintro ⟨p, hp, hc⟩ hno
    obtain ⟨f, hf, hsame⟩ := Project.covers_iff.mp hc
    exact hno (f, p.path) (mem_claimsOf.mpr ⟨p, hp, f, hf, rfl⟩) hsame
  · intro hno
    by_contra hnone
    refine hno fun c hmem hsame => hnone ?_
    obtain ⟨p, hp, f, hf, rfl⟩ := mem_claimsOf.mp hmem
    exact ⟨p, hp, Project.covers_iff.mpr ⟨f, hf, hsame⟩⟩

/-- Deduplication gives every covered file to the first project of the claiming order that covers
it, and keeps exactly the projects that got a file. -/
theorem deduplicate_partitions {projects : List Project}
    (hsorted : ∀ p ∈ projects, p.FilesSorted) :
    IsClaimingOrder projects (Project.sortBySpecificity projects) ∧
      IsPartition projects (Project.sortBySpecificity projects) (deduplicate projects).1
        (deduplicate projects).2 := by
  have horder := Project.sortBySpecificity_isClaimingOrder projects
  refine ⟨horder, ?_⟩
  have hpass : PassResult {} [] (Project.sortBySpecificity projects) (deduplicate projects).1
      (deduplicate projects).2 :=
    claimAll_spec (fun _ => rfl) List.Pairwise.nil fun p hp =>
      (hsorted p (horder.perm.mem_iff.mp hp)).filesDistinct
  have hclaims : (deduplicate projects).2.claims = claimsOf (deduplicate projects).1 := by
    rw [hpass.claims_eq, List.nil_append]
  have hunowned : ∀ file, (deduplicate projects).2.ownerOf? file = none ↔
      ∀ p ∈ projects, p.covers file = false := by
    intro file
    rw [hpass.follows file, Option.map_eq_none_iff, List.nil_append, List.find?_eq_none]
    simp only [horder.perm.mem_iff, Bool.not_eq_true]
  exact {
    owner := hpass.follows
    unowned := hunowned
    kept_eq := hpass.kept_eq.trans (survivorsAfter_nil _)
    disjoint := disjoint_of_claimed_once (hclaims ▸ hpass.claimed_once)
    union := fun file => by
      rw [exists_covers_iff_claimed hclaims, ne_eq, hunowned file]
      simp
    claimed_once := hpass.claimed_once
    size := by
      rw [Ownership.size, hclaims, claimsOf, List.length_flatMap, List.length_flatMap]
      simp }

/-- A configuration, one nested in it, and the outer one again. All three cover `lib/a.ts`. -/
def nestedTwice : List Project :=
  let outer := Project.ofFiles (.ofString "/r/tsconfig.json")
    [.ofString "/r/lib/a.ts", .ofString "/r/b.ts"] false
  let inner := Project.ofFiles (.ofString "/r/lib/tsconfig.json")
    [.ofString "/r//lib/a.ts", .ofString "/r/lib/c.ts"] true
  [outer, inner, outer]

theorem deduplicate_partitions_nestedTwice :
    (∀ p ∈ nestedTwice, p.FilesSorted) ∧
      IsClaimingOrder nestedTwice (Project.sortBySpecificity nestedTwice) ∧
      IsPartition nestedTwice (Project.sortBySpecificity nestedTwice) (deduplicate nestedTwice).1
        (deduplicate nestedTwice).2 := by
  have hsorted : ∀ p ∈ nestedTwice, p.FilesSorted := by
    intro p hp
    simp only [nestedTwice, List.mem_cons, List.not_mem_nil, or_false] at hp
    rcases hp with rfl | rfl | rfl <;> exact Project.ofFiles_filesSorted _ _ _
  exact ⟨hsorted, deduplicate_partitions hsorted⟩

/-! ## What the kept projects own -/

namespace Ownership

/-- Whether a file belongs to a configuration. -/
def Owns (o : Ownership) (config file : Path) : Prop :=
  ∃ owner, o.ownerOf? file = some owner ∧ owner.Same config

/-- A file belongs to one configuration only. -/
theorem Owns.same {o : Ownership} {config other f g : Path} (hf : o.Owns config f)
    (hg : o.Owns other g) (h : f.Same g) : config.Same other := by
  obtain ⟨owner, howner, hsame⟩ := hf
  obtain ⟨owner', howner', hsame'⟩ := hg
  rw [ownerOf?_congr h, howner'] at howner
  obtain rfl := Option.some.inj howner
  exact hsame.symm.trans hsame'

end Ownership

namespace Project

/-- No two projects are of the same configuration. -/
def PathsDistinct (projects : List Project) : Prop :=
  projects.Pairwise fun p q => ¬ p.path.Same q.path

theorem pathsDistinct_iff {projects : List Project} :
    PathsDistinct projects ↔ (projects.map path).Pairwise fun p q => ¬ p.Same q := by
  rw [PathsDistinct, List.pairwise_map]

theorem PathsDistinct.perm {projects projects' : List Project} (h : PathsDistinct projects)
    (hperm : projects.Perm projects') : PathsDistinct projects' :=
  hperm.pairwise h fun hno hyes => hno hyes.symm

end Project

theorem claimAll_paths_sublist (o : Ownership) (projects : List Project) :
    ((claimAll o projects).1.map Project.path).Sublist (projects.map Project.path) := by
  induction projects generalizing o with
  | nil => exact List.Sublist.refl []
  | cons p rest ih =>
    rw [claimAll]
    dsimp only
    split
    · exact (ih _).cons p.path
    · exact (ih _).cons_cons p.path

theorem pathsDistinct_deduplicate {projects : List Project}
    (h : Project.PathsDistinct projects) : Project.PathsDistinct (deduplicate projects).1 := by
  have hsorted : Project.PathsDistinct (Project.sortBySpecificity projects) :=
    h.perm (Order.sort_perm projects).symm
  rw [Project.pathsDistinct_iff] at hsorted ⊢
  exact hsorted.sublist (claimAll_paths_sublist {} _)

/-- If all projects are of different configurations, those that are kept list exactly the files that
belong to their configurations. -/
theorem covers_iff_owns {projects : List Project} (hsorted : ∀ p ∈ projects, p.FilesSorted)
    (hpaths : Project.PathsDistinct projects) {p : Project}
    (hp : p ∈ (deduplicate projects).1) (file : Path) :
    p.covers file = true ↔ (deduplicate projects).2.Owns p.path file := by
  have hpass : PassResult {} [] (Project.sortBySpecificity projects) (deduplicate projects).1
      (deduplicate projects).2 :=
    claimAll_spec (fun _ => rfl) List.Pairwise.nil fun p hp =>
      (hsorted p ((Order.sort_perm projects).mem_iff.mp hp)).filesDistinct
  have hclaims : (deduplicate projects).2.claims = claimsOf (deduplicate projects).1 := by
    rw [hpass.claims_eq, List.nil_append]
  constructor
  · intro hcovers
    obtain ⟨f, hf, hsame⟩ := Project.covers_iff.mp hcovers
    have hmine : (f, p.path) ∈ (deduplicate projects).2.claims := by
      rw [hclaims]
      exact mem_claimsOf.mpr ⟨p, hp, f, hf, rfl⟩
    -- The claim that is found is the one of `p`, as no file is claimed twice.
    obtain ⟨c, hfound⟩ : ∃ c, (deduplicate projects).2.claims.find?
        (fun claim => decide (claim.1.Same file)) = some c := by
      rw [← Option.isSome_iff_exists, List.find?_isSome]
      exact ⟨_, hmine, decide_eq_true hsame⟩
    have hfile : c.1.Same file := by simpa using List.find?_some hfound
    obtain rfl := Path.eq_of_pairwise_not_same hpass.claimed_once
      (List.mem_of_find?_eq_some hfound) hmine (hfile.trans hsame.symm)
    exact ⟨p.path, by rw [Ownership.ownerOf?, hfound]; rfl, rfl⟩
  · rintro ⟨owner, howner, hsame⟩
    obtain ⟨c, hfound, rfl⟩ := Option.map_eq_some_iff.mp howner
    have hmem := List.mem_of_find?_eq_some hfound
    rw [hclaims] at hmem
    obtain ⟨q, hq, f, hf, rfl⟩ := mem_claimsOf.mp hmem
    obtain rfl := Path.eq_of_pairwise_not_same (pathsDistinct_deduplicate hpaths) hq hp hsame
    exact Project.covers_iff.mpr ⟨f, hf, by simpa using List.find?_some hfound⟩

end Typesweep
