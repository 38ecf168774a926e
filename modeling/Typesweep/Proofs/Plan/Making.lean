import Typesweep.Plan
import Typesweep.Proofs.Config.Members
import Typesweep.Proofs.Discovery
import Typesweep.Proofs.Ignore.Nested
import Typesweep.Proofs.Ownership.Locality

/-!
# What a plan is made of

A plan comes from the configurations below the search roots. These are brought into the order of
paths, each once, before any of them is loaded, and so are the rule files below the roots before
their rules are gathered. So the projects of a plan are of different configurations, and each lists
the files that it owns (`Plan.Consistent`). And a plan does not depend on how its roots are given,
only on the directories that they lead to (`SameRoots`). Its owners are those that its projects give
when they are shared out again.

* `Plan.make_eq_ok_iff`: the stages of making a plan.
* `Plan.consistent_of_make`: the projects of a plan and the owners of files agree.
* `IgnoreResolver.build_sameRoots`, `FileTree.discover_sameRoots`: rules and configurations.
* `Plan.make_sameRoots`: the main result on roots.
* `Plan.deduplicate_again`: the projects of a plan shared out again.
-/

namespace Typesweep

open Typesweep.Path

variable {t : FileTree} {cwd path file : Path} {roots roots' : List Path} {projects : List Project}
  {p : Project}

/-! ## Projects of configurations -/

namespace FileTree

/-- The project of a configuration that only names files. -/
theorem resolveProject_of_files (entries : List Text) {files : List Path}
    (hdeclared : (t.readDeclaration path).toOption.map
      (fun d => (d.bases, d.files, d.options.isNone)) = some ([], some entries, true))
    (hnamed : t.namedFiles ⟨path.configDir, entries⟩ = files) (hfiles : files ≠ []) :
    t.resolveProject path = .ok (some (.ofFiles path files false)) := by
  obtain ⟨d, hread, hparts⟩ := exists_read_of_part hdeclared
  obtain ⟨hbases, hentries, hoptions⟩ :
      d.bases = [] ∧ d.files = some entries ∧ d.options = none := by simpa using hparts
  refine resolveProject_eq_some_iff.mpr
    ⟨_, files, load_of_no_bases hread hbases, ?_, hfiles, ?_⟩
  · rw [memberFiles, Config.declare, hentries]
    exact congrArg Except.ok hnamed
  · rw [Config.declare, hoptions]
    rfl

end FileTree

namespace Plan

variable {options : LintOptions} {plan : Plan}

/-- The projects are those of some of the configurations, in their order. -/
theorem of_resolveAll {paths : List Path} (h : resolveAll t paths = .ok projects) :
    (projects.map Project.path).Sublist paths ∧
      ∀ p ∈ projects, t.resolveProject p.path = .ok (some p) := by
  induction paths generalizing projects with
  | nil =>
    obtain rfl := Except.ok.inj h
    exact ⟨List.Sublist.refl [], fun p hp => absurd hp List.not_mem_nil⟩
  | cons path paths ih =>
    rw [resolveAll] at h
    split at h
    · cases h
    · next project? hresolved =>
      obtain ⟨rest, hrest, rfl⟩ := exists_of_map_eq_ok h
      obtain ⟨hpaths, hprojects⟩ := ih hrest
      cases project? with
      | none => exact ⟨hpaths.cons path, hprojects⟩
      | some p =>
        obtain ⟨_, _, -, -, -, hp⟩ := FileTree.resolveProject_eq_some_iff.mp hresolved
        have hpath : p.path = path := by rw [hp, Project.ofFiles]
        refine ⟨?_, ?_⟩
        · simpa [hpath] using hpaths
        · rw [Option.toList_some, List.singleton_append, List.forall_mem_cons, hpath]
          exact ⟨hresolved, hprojects⟩

/-! ## Plans -/

/-- A plan is made when the rules can be gathered, the roots be searched and all configurations be
loaded. -/
theorem make_eq_ok_iff :
    make t options = .ok plan ↔
      ∃ ignore found resolved,
        IgnoreResolver.build t options.cwd options.roots options.ignore = .ok ignore ∧
        t.discover options.cwd ignore options.roots = .ok found ∧
        resolveAll t (sortedDistinct found) = .ok resolved ∧
        plan = ⟨(deduplicate resolved).1, (deduplicate resolved).2,
          (sortedDistinct found).length⟩ := by
  rw [make]
  cases IgnoreResolver.build t options.cwd options.roots options.ignore with
  | error e => simp
  | ok ignore =>
    dsimp only
    cases hfound : t.discover options.cwd ignore options.roots with
    | error e => simp [hfound]
    | ok found =>
      dsimp only
      cases hresolved : resolveAll t (sortedDistinct found) with
      | error e => simp [hfound, hresolved]
      | ok resolved => simpa [hfound, hresolved] using eq_comm

/-- What the projects of a plan list is what its owners say. -/
structure Consistent (plan : Plan) : Prop where
  distinct : Project.PathsDistinct plan.projects
  covers_iff : ∀ p ∈ plan.projects, ∀ file, p.covers file = true ↔ plan.owners.Owns p.path file

theorem consistent_of_make (h : make t options = .ok plan) : plan.Consistent := by
  obtain ⟨_, found, resolved, -, -, hresolved, rfl⟩ := make_eq_ok_iff.mp h
  obtain ⟨hpaths, hprojects⟩ := of_resolveAll hresolved
  have hascends : (sortedDistinct found).Pairwise fun p q => p.compare q = .lt :=
    Order.sortDistinct_pairwise found
  have hdistinct : Project.PathsDistinct resolved := by
    rw [Project.pathsDistinct_iff]
    exact (hascends.imp not_same_of_compare_lt).sublist hpaths
  have hsorted : ∀ p ∈ resolved, p.FilesSorted := by
    intro p hp
    obtain ⟨_, files, -, -, -, hfiles⟩ :=
      FileTree.resolveProject_eq_some_iff.mp (hprojects p hp)
    rw [hfiles]
    exact Project.ofFiles_filesSorted _ files _
  exact ⟨pathsDistinct_deduplicate hdistinct, fun p hp => covers_iff_owns hsorted hdistinct hp⟩

end Plan

/-! ## Search roots -/

/-- The roots lead to the same directories, whatever their order, repetition and spelling. -/
def SameRoots (cwd : Path) (roots roots' : List Path) : Prop :=
  ∀ dir, (∃ root ∈ roots, (cwd.absolutize root).Same dir) ↔
    ∃ root ∈ roots', (cwd.absolutize root).Same dir

section Roots

variable (hcwd : cwd.isAbsolute = true) (hsame : SameRoots cwd roots roots')

include hcwd hsame

/-- What is found from some root is found from both lists. -/
theorem SameRoots.exists_iff (reach : Path → Prop) :
    (∃ root ∈ roots, reach (cwd.absolutize root)) ↔
      ∃ root ∈ roots', reach (cwd.absolutize root) := by
  have hnormal : ∀ root, (cwd.absolutize root).IsNormal := fun root =>
    isNormal_absolutize_of_isAbsolute hcwd root
  constructor
  · rintro ⟨root, hroot, hreach⟩
    obtain ⟨root', hroot', heq⟩ := (hsame _).mp ⟨root, hroot, rfl⟩
    exact ⟨root', hroot', (hnormal root').eq_of_same (hnormal root) heq ▸ hreach⟩
  · rintro ⟨root, hroot, hreach⟩
    obtain ⟨root', hroot', heq⟩ := (hsame _).mpr ⟨root, hroot, rfl⟩
    exact ⟨root', hroot', (hnormal root').eq_of_same (hnormal root) heq ▸ hreach⟩

theorem SameRoots.isDir (h : ∀ root ∈ roots, t.isDir (cwd.absolutize root) = true) :
    ∀ root ∈ roots', t.isDir (cwd.absolutize root) = true := by
  by_contra hnot
  push Not at hnot
  obtain ⟨root, hroot, hno⟩ := (hsame.exists_iff hcwd fun dir => t.isDir dir ≠ true).mpr hnot
  exact hno (h root hroot)

theorem mem_flatMap_sameRoots {α : Type} (search : Path → List α) (a : α) :
    (a ∈ roots.flatMap fun root => search (cwd.absolutize root)) ↔
      a ∈ roots'.flatMap fun root => search (cwd.absolutize root) := by
  rw [List.mem_flatMap, List.mem_flatMap]
  exact hsame.exists_iff hcwd fun dir => a ∈ search dir

end Roots

theorem FileTree.isNormal_normalize_of_mem_filesBelow {enter : Path → Text → Bool} {start : Path}
    (h : file ∈ t.filesBelow enter start) : file.normalize.IsNormal := by
  obtain ⟨place, -, -, hfind, -⟩ := exists_find_of_mem_filesBelow h
  exact isNormal_normalize (isAbsolute_of_find hfind)

namespace IgnoreResolver

theorem isNormal_of_mem_found {enter : Path → Text → Bool} {keep : Path → Bool}
    {start : Path → Path}
    (h : file ∈ (roots.flatMap fun root =>
      (t.filesBelow enter (start root)).filter keep).map normalize) : file.IsNormal := by
  obtain ⟨found, hfound, rfl⟩ := List.mem_map.mp h
  obtain ⟨_, _, hfound⟩ := List.mem_flatMap.mp hfound
  exact FileTree.isNormal_normalize_of_mem_filesBelow (List.mem_filter.mp hfound).1

/-- The rule files that are found, each once, are the same. -/
theorem nestedFiles_sameRoots (hcwd : cwd.isAbsolute = true) (hsame : SameRoots cwd roots roots')
    (rules : RuleSet) : nestedFiles t cwd rules roots = nestedFiles t cwd rules roots' := by
  refine Order.sortDistinct_congr (fun file => ?_) fun p hp q hq heq => ?_
  · simp only [List.mem_map, mem_flatMap_sameRoots hcwd hsame fun start =>
      (t.filesBelow (entersForRules rules cwd) start).filter fun file =>
        file.fileName? = some ignoreFileName]
  · exact (isNormal_of_mem_found hp).eq_of_same (isNormal_of_mem_found hq)
      (same_of_compareDepth heq)

theorem build_sameRoots (hcwd : cwd.isAbsolute = true) (hsame : SameRoots cwd roots roots')
    (patterns : List Text) : build t cwd roots patterns = build t cwd roots' patterns := by
  simp only [build, nestedFiles_sameRoots hcwd hsame]

end IgnoreResolver

theorem FileTree.isNormal_of_mem_configsBelow {r : IgnoreResolver} {root : Path}
    (h : file ∈ t.configsBelow r root) : file.IsNormal := by
  have hmem := (Order.sort_perm _).mem_iff.mp h
  obtain ⟨found, hfound, rfl⟩ := List.mem_map.mp (List.mem_filter.mp hmem).1
  exact isNormal_normalize_of_mem_filesBelow (List.mem_filter.mp hfound).1

/-- The configurations that are found, each once, are the same. -/
theorem FileTree.discover_sameRoots (hcwd : cwd.isAbsolute = true)
    (hsame : SameRoots cwd roots roots')
    (hroots : ∀ root ∈ roots, t.isDir (cwd.absolutize root) = true) (r : IgnoreResolver) :
    ∃ found found', t.discover cwd r roots = .ok found ∧ t.discover cwd r roots' = .ok found' ∧
      sortedDistinct found = sortedDistinct found' := by
  refine ⟨_, _, discover_eq hroots, discover_eq (hsame.isDir hcwd hroots), ?_⟩
  refine Order.sortDistinct_congr (mem_flatMap_sameRoots hcwd hsame (t.configsBelow r))
    fun p hp q hq heq => ?_
  obtain ⟨_, _, hp⟩ := List.mem_flatMap.mp hp
  obtain ⟨_, _, hq⟩ := List.mem_flatMap.mp hq
  exact (isNormal_of_mem_configsBelow hp).eq_of_same (isNormal_of_mem_configsBelow hq)
    (compare_eq_iff.mp heq)

namespace Plan

/-- Two configurations, one nested in the other, that both name `lib/b.ts`. -/
def nestedConfigs : FileTree :=
  let outer := "\x7b\"files\": [\"a.ts\", \"lib/b.ts\"]\x7d"
  let inner := "\x7b\"files\": [\"b.ts\"]\x7d"
  ⟨[([.ofString "w"], .dir), ([.ofString "w", .ofString "a.ts"], .file [] false),
    ([.ofString "w", configName], .file (Text.toUtf8 outer.toList) false),
    ([.ofString "w", .ofString "lib"], .dir),
    ([.ofString "w", .ofString "lib", .ofString "b.ts"], .file [] false),
    ([.ofString "w", .ofString "lib", configName], .file (Text.toUtf8 inner.toList) false)]⟩

/-- The project of the inner configuration of `nestedConfigs`. -/
def innerProject : Project :=
  .ofFiles (.ofString "/w/lib/tsconfig.json") [.ofString "/w/lib/b.ts"] false

/-- The project of the outer configuration of `nestedConfigs` with some of its files. -/
def outerProject (files : List Path) : Project :=
  .ofFiles (.ofString "/w/tsconfig.json") files false

/-- The plan for `nestedConfigs`, in which the inner configuration owns `lib/b.ts`. -/
def nestedPlan : Plan where
  projects := [innerProject, outerProject [.ofString "/w/a.ts"]]
  owners :=
    ⟨[(.ofString "/w/lib/b.ts", .ofString "/w/lib/tsconfig.json"),
      (.ofString "/w/a.ts", .ofString "/w/tsconfig.json")]⟩
  discovered := 2

theorem make_nestedConfigs :
    make nestedConfigs ⟨.ofString "/w", [.ofString ".", .ofString "lib"], []⟩ = .ok nestedPlan := by
  obtain ⟨ignore, hbuild, hdiscover⟩ : ∃ ignore, IgnoreResolver.build nestedConfigs (.ofString "/w")
      [.ofString ".", .ofString "lib"] [] = .ok ignore ∧
        (nestedConfigs.discover (.ofString "/w") ignore
          [.ofString ".", .ofString "lib"]).toOption.map sortedDistinct =
            some [.ofString "/w/lib/tsconfig.json", .ofString "/w/tsconfig.json"] :=
    IgnoreResolver.exists_ok_of_map (by decide +kernel)
  obtain ⟨found, hfound, hconfigs⟩ := IgnoreResolver.exists_ok_of_map hdiscover
  have hinner : nestedConfigs.resolveProject (.ofString "/w/lib/tsconfig.json") =
      .ok (some innerProject) :=
    FileTree.resolveProject_of_files ["b.ts".toList] (by decide +kernel) (by decide +kernel)
      (List.cons_ne_nil _ _)
  have houter : nestedConfigs.resolveProject (.ofString "/w/tsconfig.json") =
      .ok (some (outerProject [.ofString "/w/a.ts", .ofString "/w/lib/b.ts"])) :=
    FileTree.resolveProject_of_files ["a.ts".toList, "lib/b.ts".toList] (by decide +kernel)
      (by decide +kernel) (List.cons_ne_nil _ _)
  have hresolved : resolveAll nestedConfigs (sortedDistinct found) =
      .ok [innerProject, outerProject [.ofString "/w/a.ts", .ofString "/w/lib/b.ts"]] := by
    rw [hconfigs, resolveAll, hinner, resolveAll, houter]
    rfl
  have hshared : deduplicate
      [innerProject, outerProject [.ofString "/w/a.ts", .ofString "/w/lib/b.ts"]] =
        (nestedPlan.projects, nestedPlan.owners) := by
    decide +kernel
  refine make_eq_ok_iff.mpr ⟨ignore, found, _, hbuild, hfound, hresolved, ?_⟩
  rw [hshared, hconfigs]
  rfl

-- Of roots that are no directories the first one is reported.
example : [["a", "b"], ["b", "a"]].map (fun roots =>
    match make nestedConfigs ⟨.ofString "/w", roots.map .ofString, []⟩ with
    | .error (.discovery e) => e.message
    | _ => "") =
      ["root path does not exist: /w/a", "root path does not exist: /w/b"] := by
  decide +kernel

/-! ## Sharing out again -/

/-- Projects that were shared out once come out the same when they are shared out again, with the
same files in the same order and with the same owners. So the owners of a plan follow from its
projects. -/
theorem deduplicate_again :
    (∀ projects : List Project, deduplicate (deduplicate projects).1 = deduplicate projects) ∧
      ∀ (t : FileTree) (options : LintOptions) (plan : Plan), make t options = .ok plan →
        deduplicate plan.projects = (plan.projects, plan.owners) := by
  refine ⟨deduplicate_kept, ?_⟩
  intro t options plan h
  obtain ⟨_, _, resolved, -, -, -, rfl⟩ := make_eq_ok_iff.mp h
  exact deduplicate_kept resolved

/-- Two projects of one configuration that both keep a file, with one nested in it that takes a file
from each. -/
def sameConfigTwice : List Project :=
  [outerProject [.ofString "/w/a.ts", .ofString "/w/lib/b.ts"],
    .ofFiles (.ofString "/w/lib/tsconfig.json") [.ofString "/w/lib/b.ts", .ofString "/w/d.ts"]
      false,
    outerProject [.ofString "/w/a.ts", .ofString "/w/c.ts", .ofString "/w/d.ts"]]

theorem deduplicate_again_sameConfigTwice :
    (deduplicate sameConfigTwice).1.map (fun p => p.files.map toString) =
        [["/w/d.ts", "/w/lib/b.ts"], ["/w/a.ts"], ["/w/c.ts"]] ∧
      deduplicate (deduplicate sameConfigTwice).1 = deduplicate sameConfigTwice ∧
      make nestedConfigs ⟨.ofString "/w", [.ofString ".", .ofString "lib"], []⟩ = .ok nestedPlan ∧
      deduplicate nestedPlan.projects = (nestedPlan.projects, nestedPlan.owners) :=
  ⟨by decide +kernel, deduplicate_again.1 sameConfigTwice, make_nestedConfigs,
    deduplicate_again.2 _ _ _ make_nestedConfigs⟩

end Plan

end Typesweep
