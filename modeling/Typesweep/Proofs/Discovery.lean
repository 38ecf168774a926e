import Typesweep.Discovery
import Typesweep.Proofs.FileTree.Pruning
import Typesweep.Proofs.Ignore.Verdict
import Typesweep.Proofs.Order
import Typesweep.Proofs.Path.Order

/-!
# What discovery finds

The search for configurations passes over the directories that the rules ignore. A negated rule can
take back a file in such a directory, and the search misses it. If no rule is negated, an ignored
directory takes all below it with it, so the search finds each configuration that is not ignored.

* `isIgnored_of_isAbove`: what lies in an ignored directory.
* `mem_configsBelow_iff`, `configsBelow_pairwise`: the configurations below one root.
* `discover_complete`: those below all roots.
* `configsBelow_sublist`: rules that ignore more, with negated ones or without.
-/

namespace Typesweep

open Typesweep.Path Text

variable {t : FileTree} {r : IgnoreResolver} {cwd dir file root : Path} {roots : List Path}

namespace IgnoreResolver

theorem isIgnored_of_isAbove (hcwd : r.cwd.isAbsolute = true)
    (hrules : ∀ p ∈ r.rules.patterns, p.negated = false) (hdir : dir.IsNormal)
    (hbelow : dir.IsAbove file) (h : r.isDirIgnored dir = true) : r.isIgnored file = true := by
  obtain ⟨base, hbase, hsame⟩ : ∃ base : Path, base.IsNormal ∧ r.cwd.Same base :=
    hdir.exists_same_of_prefix hcwd (RuleSet.prefix_of_ignores hcwd hdir.1 h)
  rw [isDirIgnored, RuleSet.ignores_congr hsame] at h
  rw [isIgnored, RuleSet.ignores_congr hsame]
  exact RuleSet.ignores_of_isAbove hbase hdir hbelow (fun p hp _ => hrules p hp)
    (List.Subset.refl _) h

end IgnoreResolver

namespace FileTree

section NotNegated

variable (hnames : t.NamesProper) (hcwd : r.cwd.isAbsolute = true)
  (hrules : ∀ p ∈ r.rules.patterns, p.negated = false) (hroot : root.IsNormal)

include hnames hcwd hrules hroot

/-- The directories that the search passes over hold no configuration that is left. -/
theorem configsBelow_perm : (t.configsBelow r root).Perm
    ((t.walkedFiles root).filter fun file => file.isConfig && !r.isIgnored file) := by
  refine (Order.sort_perm _).trans (List.Perm.of_eq ?_)
  have hnormal : ∀ file ∈ (t.filesBelow (entersForConfigs r) root).filter Path.isConfig,
      file.normalize = file := by
    intro file hfile
    exact (isNormal_of_mem_filesBelow hnames hroot (List.mem_filter.mp hfile).1).2
  rw [List.map_congr_left hnormal, List.map_id', List.filter_filter]
  simp only [Bool.and_comm (_ : Bool) (Path.isConfig _)]
  refine filter_filesBelow_congr hnames fun dir name hdir hdiffer file hbelow => ?_
  have hignored : r.isDirIgnored dir = true := by
    by_contra hnot
    rw [Bool.not_eq_true] at hnot
    simp [entersForConfigs, hnot] at hdiffer
  rw [IgnoreResolver.isIgnored_of_isAbove hcwd hrules (hroot.of_isAbove hdir) hbelow hignored,
    Bool.not_true, Bool.and_false]

theorem mem_configsBelow_iff :
    file ∈ t.configsBelow r root ↔
      file ∈ t.walkedFiles root ∧ file.isConfig = true ∧ r.isIgnored file = false := by
  rw [(configsBelow_perm hnames hcwd hrules hroot).mem_iff, List.mem_filter, Bool.and_eq_true,
    Bool.not_eq_true']

theorem configsBelow_pairwise :
    (t.configsBelow r root).Pairwise fun p q => p.compare q = .lt := by
  have hperm := configsBelow_perm hnames hcwd hrules hroot
  have hsorted : (t.configsBelow r root).Pairwise (Order.NotAfter Path.compare) :=
    Order.sort_pairwise _
  have hdistinct : (t.configsBelow r root).Nodup :=
    hperm.nodup_iff.mpr ((nodup_filesBelow hnames hroot.1).filter _)
  have hnormal : ∀ file ∈ t.configsBelow r root, file.IsNormal := fun file hfile =>
    isNormal_of_mem_filesBelow hnames hroot (List.mem_filter.mp (hperm.mem_iff.mp hfile)).1
  refine (hsorted.and hdistinct).imp_of_mem fun {p q} hp hq ⟨hle, hne⟩ => ?_
  cases hcompare : p.compare q with
  | lt => rfl
  | eq => exact absurd ((hnormal p hp).eq_of_same (hnormal q hq) (compare_eq_iff.mp hcompare)) hne
  | gt => exact absurd hcompare hle

end NotNegated

theorem discover_eq (h : ∀ root ∈ roots, t.isDir (cwd.absolutize root) = true) :
    t.discover cwd r roots =
      .ok (roots.flatMap fun root => t.configsBelow r (cwd.absolutize root)) := by
  induction roots with
  | nil => rfl
  | cons root roots ih =>
    obtain ⟨hroot, hrest⟩ := List.forall_mem_cons.mp h
    have hcontains : t.contains (cwd.absolutize root) = true := by
      obtain ⟨place, hfind, hentry⟩ := isDir_iff.mp hroot
      simp only [contains, lookup, hfind, hentry, Except.isOk, Except.toBool]
    rw [discover]
    simp [hcontains, hroot, ih hrest, Except.map]

/-- If no rule is negated, the configurations that are found are, for each root in turn and in the
order of paths, all those that the walk finds which enters every directory it ever enters, except
those that are ignored themselves. -/
theorem discover_complete (hnames : t.NamesProper) (hcwd : r.cwd.isAbsolute = true)
    (hrules : ∀ p ∈ r.rules.patterns, p.negated = false)
    (hroots : ∀ root ∈ roots, t.isDir (cwd.absolutize root) = true) :
    t.discover cwd r roots =
        .ok (roots.flatMap fun root => t.configsBelow r (cwd.absolutize root)) ∧
      ∀ root ∈ roots,
        (t.configsBelow r (cwd.absolutize root)).Pairwise (fun p q => p.compare q = .lt) ∧
        ∀ file, file ∈ t.configsBelow r (cwd.absolutize root) ↔
          file ∈ t.walkedFiles (cwd.absolutize root) ∧ file.isConfig = true ∧
            r.isIgnored file = false := by
  refine ⟨discover_eq hroots, fun root hroot => ?_⟩
  obtain ⟨place, hfind, -⟩ := isDir_iff.mp (hroots root hroot)
  have hnormal := isNormal_absolutize (isAbsolute_of_find hfind)
  exact ⟨configsBelow_pairwise hnames hcwd hrules hnormal, fun file =>
    mem_configsBelow_iff hnames hcwd hrules hnormal⟩

/-- Rules that ignore more leave fewer configurations, in the same order. It only matters which
directories of the tree they ignore, and which of the files that the search comes to. -/
theorem configsBelow_sublist {r' : IgnoreResolver}
    (hdirs : ∀ dir, t.isDir dir = true → r.isDirIgnored dir = true → r'.isDirIgnored dir = true)
    (hfiles : ∀ file ∈ t.filesBelow (entersForConfigs r) root,
      r.isIgnored file.normalize = true → r'.isIgnored file.normalize = true) :
    (t.configsBelow r' root).Sublist (t.configsBelow r root) := by
  have hwalk : (t.filesBelow (entersForConfigs r') root).Sublist
      (t.filesBelow (entersForConfigs r) root) := by
    refine filesBelow_sublist fun dir name hdir henter => ?_
    simp only [entersForConfigs, Bool.and_eq_true, Bool.not_eq_true'] at henter ⊢
    refine ⟨henter.1, Bool.eq_false_iff.mpr fun hignored => ?_⟩
    rw [hdirs dir hdir hignored] at henter
    cases henter.2
  have hkept : (((t.filesBelow (entersForConfigs r) root).filter Path.isConfig).map
      Path.normalize).filter (fun p => !r'.isIgnored p) =
        ((((t.filesBelow (entersForConfigs r) root).filter Path.isConfig).map
          Path.normalize).filter fun p => !r.isIgnored p).filter fun p => !r'.isIgnored p := by
    rw [List.filter_filter]
    refine List.filter_congr fun p hp => ?_
    obtain ⟨file, hfile, rfl⟩ := List.mem_map.mp hp
    have hmore := hfiles file (List.mem_filter.mp hfile).1
    cases hignored : r.isIgnored file.normalize with
    | false => rw [Bool.not_false, Bool.and_true]
    | true => rw [hmore hignored]; rfl
  unfold configsBelow
  refine Order.sort_sublist (((hwalk.filter _).map _).filter _ |>.trans ?_)
  rw [hkept]
  exact List.filter_sublist

/-- Configurations inside and outside of an ignored directory. -/
def ignoredDist : FileTree :=
  ⟨[([.ofString "w"], .dir), ([.ofString "w", .ofString "dist"], .dir),
    ([.ofString "w", .ofString "dist", configName], .file [] false),
    ([.ofString "w", .ofString "pkg"], .dir),
    ([.ofString "w", .ofString "pkg", configName], .file [] false),
    ([.ofString "w", configName], .file [] false)]⟩

theorem discover_complete_ignoredDist :
    ∃ found, ignoredDist.discover (.ofString "/w")
        ⟨.ofString "/w", RuleSet.addLine [] "dist".toList (.ofString "/w")⟩ [.ofString "."] =
          .ok found ∧ (Path.ofString "/w/pkg/tsconfig.json") ∈ found := by
  have hnames : ignoredDist.NamesProper := by decide +kernel
  have hroot : ∀ root ∈ [Path.ofString "."],
      ignoredDist.isDir ((Path.ofString "/w").absolutize root) = true := by
    decide +kernel
  obtain ⟨hfound, hroots⟩ := discover_complete
    (r := ⟨.ofString "/w", RuleSet.addLine [] "dist".toList (.ofString "/w")⟩) hnames (by decide)
    (by decide +kernel) hroot
  have hmem := ((hroots _ (List.mem_singleton_self _)).2 (.ofString "/w/pkg/tsconfig.json")).mpr
    ⟨by decide +kernel, by decide +kernel, by decide +kernel⟩
  exact ⟨_, hfound, List.mem_flatMap.mpr ⟨_, List.mem_singleton_self _, hmem⟩⟩

/-- Rules of which one takes back what lies in an ignored directory. -/
def takesBackConfigs : IgnoreResolver :=
  ⟨.ofString "/w", RuleSet.addLines [] ["dist".toList, "!tsconfig.json".toList] (.ofString "/w")⟩

-- With a negated rule the search can miss a configuration that is not ignored.
example :
    takesBackConfigs.isIgnored (.ofString "/w/dist/tsconfig.json") = false ∧
      Path.ofString "/w/dist/tsconfig.json" ∈ ignoredDist.walkedFiles (.ofString "/w") ∧
      Path.ofString "/w/dist/tsconfig.json" ∉
        ignoredDist.configsBelow takesBackConfigs (.ofString "/w") := by
  decide +kernel

end FileTree

end Typesweep
