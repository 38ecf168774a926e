import Typesweep.Proofs.FileTree.Pruning
import Typesweep.Proofs.Ignore.Nested
import Typesweep.Proofs.Ignore.Verdict

/-!
# Which nested rule files count

A nested rule file is judged twice. The search for rule files only enters directories that the rules
of the directories above and of the working directory itself leave; then the file is asked for among
all rules gathered before its own. Rules that are gathered in between can take back what the search
has passed over, which makes no difference to it, and they can take back the file itself although a
directory above it is ignored (`build_passed_over`).

* `loadedFiles`, `addFiles_eq_foldl`: the files that count, and the rules they leave.
* `soFar`: the rules gathered before those of a file.
* `mem_loadedFiles_iff`: each file is judged by the rules before it.
* `loaded_iff`: the files of a run that count.
-/

namespace Typesweep.IgnoreResolver

open Typesweep.Path Text

variable {t : FileTree} {cwd file : Path} {rules upward : RuleSet} {roots files : List Path}
  {patterns : List Text} {r : IgnoreResolver}

/-! ## Adding files one after the other -/

/-- The lines that a nested rule file adds, reworded. -/
def ownLines (t : FileTree) (cwd file : Path) : List Text :=
  match file.parent?.bind fun dir => dir.relativeTo? cwd, readLines t file with
  | some dir, .ok lines => lines.map fun line => lineFromBelow line dir.text
  | _, _ => []

/-- The rules with those of a nested rule file added. -/
def addOwn (t : FileTree) (cwd : Path) (rules : RuleSet) (file : Path) : RuleSet :=
  rules.addLines (ownLines t cwd file) (file.parent?.getD cwd)

/-- The files among some that count, in the same order. -/
def loadedFiles (t : FileTree) (cwd : Path) : RuleSet → List Path → List Path
  | _, [] => []
  | rules, file :: files =>
    if counts cwd rules file then file :: loadedFiles t cwd (addOwn t cwd rules file) files
    else loadedFiles t cwd rules files

theorem addNestedFile_eq [IgnoreEngine] {rules' : RuleSet}
    (h : addNestedFile t cwd rules file = .ok rules') :
    rules' = if counts cwd rules file then addOwn t cwd rules file else rules := by
  rcases addNestedFile_eq_ok h with ⟨hno, rfl⟩ | ⟨hyes, relative, lines, hrelative, hlines, rfl⟩
  · rw [hno]
    rfl
  · rw [hyes, if_pos rfl, addOwn, ownLines, hrelative, hlines]

theorem addFiles_eq_foldl [IgnoreEngine] {rules' : RuleSet}
    (h : addFiles (addNestedFile t cwd) rules files = .ok rules') :
    rules' = (loadedFiles t cwd rules files).foldl (addOwn t cwd) rules := by
  induction files generalizing rules with
  | nil => exact (Except.ok.inj h).symm
  | cons file files ih =>
    rw [addFiles] at h
    split at h
    · cases h
    · next rules'' hadd =>
      rw [ih h, addNestedFile_eq hadd, loadedFiles]
      split <;> rfl

/-- The rules gathered before those of a file. -/
def soFar (t : FileTree) (cwd : Path) (rules : RuleSet) (loaded : List Path) (file : Path) :
    RuleSet :=
  (loaded.filter fun earlier => compareDepth earlier file = .lt).foldl (addOwn t cwd) rules

theorem loadedFiles_sublist (t : FileTree) (cwd : Path) (rules : RuleSet) (files : List Path) :
    (loadedFiles t cwd rules files).Sublist files := by
  induction files generalizing rules with
  | nil => exact List.Sublist.refl []
  | cons file files ih =>
    rw [loadedFiles]
    split
    · exact (ih _).cons_cons file
    · exact (ih rules).cons file

theorem compareDepth_ne_lt_self (p : Path) : compareDepth p p ≠ .lt := by
  have heq : compareDepth p p = .eq := Std.ReflCmp.compare_self
  rw [heq]
  decide

theorem compareDepth_ne_lt_of_lt {p q : Path} (h : compareDepth p q = .lt) :
    compareDepth q p ≠ .lt := by
  have hswap : compareDepth q p = (compareDepth p q).swap := Std.OrientedCmp.eq_swap
  rw [hswap, h]
  decide

/-- Each file is judged by the rules gathered before its own. -/
theorem mem_loadedFiles_iff (hsorted : files.Pairwise fun p q => compareDepth p q = .lt) :
    file ∈ loadedFiles t cwd rules files ↔
      file ∈ files ∧ counts cwd (soFar t cwd rules (loadedFiles t cwd rules files) file) file := by
  induction files generalizing rules with
  | nil => simp [loadedFiles]
  | cons first files ih =>
    obtain ⟨hfirst, hrest⟩ := List.pairwise_cons.mp hsorted
    by_cases hsame : file = first
    · -- None of the files that count comes before the first one.
      subst hsame
      have hnone : soFar t cwd rules (loadedFiles t cwd rules (file :: files)) file = rules := by
        have hfilter : (loadedFiles t cwd rules (file :: files)).filter
            (fun earlier => compareDepth earlier file = .lt) = [] := by
          refine List.filter_eq_nil_iff.mpr fun earlier hearlier => ?_
          rw [decide_eq_true_iff]
          rcases List.mem_cons.mp ((loadedFiles_sublist ..).mem hearlier) with rfl | hmem
          · exact compareDepth_ne_lt_self _
          · exact compareDepth_ne_lt_of_lt (hfirst earlier hmem)
        rw [soFar, hfilter]
        rfl
      have hnot : file ∉ loadedFiles t cwd rules files := fun h =>
        compareDepth_ne_lt_self file (hfirst file ((loadedFiles_sublist ..).mem h))
      rw [hnone, loadedFiles]
      split
      · next hcounts => simp [hcounts]
      · next hcounts => simp [hcounts, hnot]
    · rw [List.mem_cons, or_iff_right hsame]
      by_cases hmem : file ∈ files
      · rw [loadedFiles]
        split
        · rw [List.mem_cons, or_iff_right hsame, ih hrest, soFar, soFar,
            List.filter_cons_of_pos (by simpa using hfirst file hmem), List.foldl_cons]
        · exact ih hrest
      · refine iff_of_false (fun h => ?_) fun h => hmem h.1
        rcases List.mem_cons.mp ((loadedFiles_sublist ..).mem h) with h | h
        · exact hsame h
        · exact hmem h

/-! ## The files of a run that count -/

/-- How the rules of a run are put together: to those of the working directory and of the
directories above it come those of the nested files that count, and last the patterns of the
caller. -/
structure Gathered (t : FileTree) (cwd : Path) (roots : List Path) (patterns : List Text)
    (r : IgnoreResolver) (upward : RuleSet) (loaded : List Path) : Prop where
  upward_eq : upwardRules t cwd = .ok upward
  loaded_eq : loaded = loadedFiles t cwd upward (nestedFiles t cwd upward roots)
  eq : r = ⟨cwd, (loaded.foldl (addOwn t cwd) upward).addLines patterns cwd⟩

theorem exists_gathered [IgnoreEngine] (h : build t cwd roots patterns = .ok r) :
    ∃ upward loaded, Gathered t cwd roots patterns r upward loaded := by
  obtain ⟨upward, nested, hupward, -, hnested, -, rfl⟩ := build_eq_ok_iff.mp h
  exact ⟨upward, _, hupward, rfl, by rw [addFiles_eq_foldl hnested]⟩

theorem foldl_addOwn_patterns (files : List Path) :
    upward.patterns <+: (files.foldl (addOwn t cwd) upward).patterns := by
  induction files generalizing upward with
  | nil => exact List.prefix_rfl
  | cons file files ih =>
    refine List.IsPrefix.trans ?_ ih
    rw [addOwn, RuleSet.patterns_addLines]
    exact List.prefix_append _ _

/-- Whether a path is that of the rule file of a directory below the working directory. -/
def IsNested (cwd file : Path) : Prop :=
  ∃ dir, cwd.IsAbove dir ∧ file = dir.child ignoreFileName

/-- The rule file of a directory below the working directory counts, unless it is ignored. -/
theorem counts_iff (hcwd : cwd.IsNormal) (h : IsNested cwd file) :
    counts cwd rules file ↔ rules.ignores cwd file false = false := by
  obtain ⟨_, ⟨names, hne, hnames, rfl⟩, rfl⟩ := h
  have hsame : ¬ ((cwd.under names).child ignoreFileName).Same (cwd.child ignoreFileName) := by
    intro hsame
    have heq : cwd.under (names ++ [ignoreFileName]) = cwd.under [ignoreFileName] := by
      rw [under_concat]
      exact ((hcwd.under hnames).child proper_ignoreFileName).eq_of_same
        (hcwd.child proper_ignoreFileName) hsame
    have hlast : ∀ name ∈ [ignoreFileName], (Component.name name).Proper :=
      List.forall_mem_singleton.mpr proper_ignoreFileName
    have hnil := under_inj hcwd.1 (List.forall_mem_append.mpr ⟨hnames, hlast⟩) hlast heq
    exact hne (List.append_left_eq_self.mp hnil)
  rw [counts, relativeTo?_parent hcwd hnames]
  simp [hsame]

/-- The search for nested rule files passes over the directories that the rules ignore. -/
theorem mem_nestedFiles_iff_walkedFiles (hnames : t.NamesProper) (hcwd : cwd.IsNormal)
    (h : IsNested cwd file) :
    file ∈ nestedFiles t cwd rules roots ↔ ∃ root ∈ roots,
      file ∈ t.walkedFiles (cwd.absolutize root) ∧
        ∀ dir, (cwd.absolutize root).IsAbove dir → dir.IsAbove file →
          rules.ignores cwd dir true = false := by
  have hname : file.fileName? = some ignoreFileName := by
    obtain ⟨dir, hdir, rfl⟩ := h
    exact fileName?_child (hcwd.of_isAbove hdir).1 proper_ignoreFileName
  have henter : entersForRules rules cwd = fun dir name =>
      (fun _ name => !isNeverWalked name) dir name && !rules.ignores cwd dir true := rfl
  rw [mem_nestedFiles_iff hnames hcwd.1, henter]
  simp only [hname, true_and, Bool.not_eq_true', FileTree.walkedFiles,
    FileTree.mem_filesBelow_and_iff hnames (isNormal_absolutize_of_isAbsolute hcwd.1 _).1]

/-- Of the nested rule files those count that the pruned search finds and that the rules gathered
before theirs do not ignore. If none of these rules that matches the file or a directory above it is
negated, the search passes over no file that counts. -/
theorem loaded_iff [IgnoreEngine] (hnames : t.NamesProper) (hcwd : cwd.IsNormal)
    (hbuild : build t cwd roots patterns = .ok r) :
    ∃ upward loaded, Gathered t cwd roots patterns r upward loaded ∧
      ∀ file, IsNested cwd file →
        (file ∈ loaded ↔
          (∃ root ∈ roots, file ∈ t.walkedFiles (cwd.absolutize root) ∧
            ∀ dir, (cwd.absolutize root).IsAbove dir → dir.IsAbove file →
              upward.ignores cwd dir true = false) ∧
          (soFar t cwd upward loaded file).ignores cwd file false = false) ∧
        ((∃ root ∈ roots, file ∈ t.walkedFiles (cwd.absolutize root)) →
          (∀ p ∈ (soFar t cwd upward loaded file).patterns,
            p.Touches cwd file false → p.negated = false) →
          (file ∈ loaded ↔
            (soFar t cwd upward loaded file).ignores cwd file false = false ∧
            ∀ dir, cwd.IsAbove dir → dir.IsAbove file →
              (soFar t cwd upward loaded file).ignores cwd dir true = false)) := by
  obtain ⟨upward, loaded, hgathered⟩ := exists_gathered hbuild
  refine ⟨upward, loaded, hgathered, fun file hfile => ?_⟩
  have hsorted : (nestedFiles t cwd upward roots).Pairwise fun p q => compareDepth p q = .lt :=
    Order.sortDistinct_pairwise _
  have hloaded : file ∈ loaded ↔ (∃ root ∈ roots, file ∈ t.walkedFiles (cwd.absolutize root) ∧
      ∀ dir, (cwd.absolutize root).IsAbove dir → dir.IsAbove file →
        upward.ignores cwd dir true = false) ∧
      (soFar t cwd upward loaded file).ignores cwd file false = false := by
    rw [hgathered.loaded_eq, mem_loadedFiles_iff hsorted, counts_iff hcwd hfile,
      mem_nestedFiles_iff_walkedFiles hnames hcwd hfile]
  refine ⟨hloaded, fun ⟨root, hroot, hmem⟩ hplain => ?_⟩
  -- A directory that the rules ignore, or only the first of them, takes the file with it.
  have habove : ∀ (dir : Path) (earlier : RuleSet), dir.IsNormal → dir.IsAbove file →
      earlier.patterns ⊆ (soFar t cwd upward loaded file).patterns →
        (soFar t cwd upward loaded file).ignores cwd file false = false →
          earlier.ignores cwd dir true = false := by
    intro dir earlier hnormal hbelow hearlier hignored
    refine Bool.eq_false_iff.mpr fun hdir => ?_
    rw [RuleSet.ignores_of_isAbove hcwd hnormal hbelow hplain hearlier hdir] at hignored
    cases hignored
  rw [hloaded]
  constructor
  · rintro ⟨-, hignored⟩
    exact ⟨hignored, fun dir hcwdBelow hbelow =>
      habove dir _ (hcwd.of_isAbove hcwdBelow) hbelow (List.Subset.refl _) hignored⟩
  · rintro ⟨hignored, -⟩
    refine ⟨⟨root, hroot, hmem, fun dir hrootBelow hbelow => ?_⟩, hignored⟩
    exact habove dir _ ((isNormal_absolutize_of_isAbsolute hcwd.1 root).of_isAbove hrootBelow)
      hbelow (foldl_addOwn_patterns _).subset hignored

/-- The rules gathered before those of a file in a search that starts at the working directory. -/
def judges (t : FileTree) (cwd : Path) (upward : RuleSet) (file : Path) : RuleSet :=
  soFar t cwd upward (loadedFiles t cwd upward (nestedFiles t cwd upward [.ofString "."])) file

theorem loaded_iff_siblingDirs :
    ∃ r upward loaded, build siblingDirs (.ofString "/w") [.ofString "."] [] = .ok r ∧
      Gathered siblingDirs (.ofString "/w") [.ofString "."] [] r upward loaded ∧
      (Path.ofString "/w/pkg").child ignoreFileName ∈ loaded := by
  obtain ⟨r, hr, -⟩ : ∃ r, build siblingDirs (.ofString "/w") [.ofString "."] [] = .ok r ∧
      r.isIgnored (.ofString "pkg/dist") = true :=
    exists_ok_of_map (by decide +kernel)
  have hnames : siblingDirs.NamesProper := by decide +kernel
  have hcwd : (Path.ofString "/w").IsNormal := by decide +kernel
  have hproper : ∀ name ∈ [.ofString "pkg"], (Component.name name).Proper := by decide +kernel
  obtain ⟨upward, loaded, hgathered, hloaded⟩ := loaded_iff hnames hcwd hr
  obtain ⟨upward', hupward', hrules⟩ : ∃ upward', upwardRules siblingDirs (.ofString "/w") =
      .ok upward' ∧ decide (
        (∀ p ∈ (judges siblingDirs (.ofString "/w") upward'
          ((Path.ofString "/w/pkg").child ignoreFileName)).patterns, p.negated = false) ∧
        (judges siblingDirs (.ofString "/w") upward'
          ((Path.ofString "/w/pkg").child ignoreFileName)).ignores (.ofString "/w")
            ((Path.ofString "/w/pkg").child ignoreFileName) false = false) = true :=
    exists_ok_of_map (by decide +kernel)
  obtain rfl := Except.ok.inj (hgathered.upward_eq.symm.trans hupward')
  rw [decide_eq_true_iff, judges, ← hgathered.loaded_eq] at hrules
  obtain ⟨hplain, hignored⟩ := hrules
  have hnested : IsNested (.ofString "/w") ((Path.ofString "/w/pkg").child ignoreFileName) :=
    ⟨_, ⟨_, by decide, hproper, by decide⟩, rfl⟩
  have hfound := (hloaded _ hnested).2 ⟨_, List.mem_singleton_self _, by decide +kernel⟩
    fun p hp _ => hplain p hp
  refine ⟨r, upward, loaded, hr, hgathered, hfound.mpr ⟨hignored, fun dir hdir hbelow => ?_⟩⟩
  refine Bool.eq_false_iff.mpr fun hdirIgnored => ?_
  rw [RuleSet.ignores_of_isAbove hcwd (hcwd.of_isAbove hdir) hbelow (fun p hp _ => hplain p hp)
    (List.Subset.refl _) hdirIgnored] at hignored
  cases hignored

/-- A directory `build` with rules that the rules of its parent directory take back. -/
def takenBack : FileTree :=
  ⟨[([.ofString "w"], .dir),
    ([.ofString "w", ignoreFileName], .file (toUtf8 "build\n".toList) false),
    ([.ofString "w", .ofString "pkg"], .dir),
    ([.ofString "w", .ofString "pkg", ignoreFileName], .file (toUtf8 "!build\n".toList) false),
    ([.ofString "w", .ofString "pkg", .ofString "build"], .dir),
    ([.ofString "w", .ofString "pkg", .ofString "build", ignoreFileName],
      .file (toUtf8 "out\n".toList) false)]⟩

/-- A rule file need not count although the rules before its own ignore neither the file nor a
directory above it: `build` is passed over before `!build` is read. -/
theorem build_passed_over :
    ∃ r upward loaded, build takenBack (.ofString "/w") [.ofString "."] [] = .ok r ∧
      Gathered takenBack (.ofString "/w") [.ofString "."] [] r upward loaded ∧
      ∃ file, IsNested (.ofString "/w") file ∧
        (∃ root ∈ [Path.ofString "."],
          file ∈ takenBack.walkedFiles ((Path.ofString "/w").absolutize root)) ∧
        (soFar takenBack (.ofString "/w") upward loaded file).ignores (.ofString "/w") file false =
          false ∧
        (∀ dir, (Path.ofString "/w").IsAbove dir → dir.IsAbove file →
          (soFar takenBack (.ofString "/w") upward loaded file).ignores (.ofString "/w") dir true =
            false) ∧
        file ∉ loaded ∧ r.isIgnored (.ofString "pkg/build/out") = false := by
  obtain ⟨r, hr, hout⟩ : ∃ r, build takenBack (.ofString "/w") [.ofString "."] [] = .ok r ∧
      r.isIgnored (.ofString "pkg/build/out") = false :=
    exists_ok_of_map (by decide +kernel)
  obtain ⟨upward, loaded, hgathered⟩ := exists_gathered hr
  obtain ⟨upward', hupward', hrules⟩ : ∃ upward', upwardRules takenBack (.ofString "/w") =
      .ok upward' ∧ decide (
        (Path.ofString "/w/pkg/build").child ignoreFileName ∉ loadedFiles takenBack (.ofString "/w")
          upward' (nestedFiles takenBack (.ofString "/w") upward' [.ofString "."]) ∧
        (judges takenBack (.ofString "/w") upward'
          ((Path.ofString "/w/pkg/build").child ignoreFileName)).ignores (.ofString "/w")
            ((Path.ofString "/w/pkg/build").child ignoreFileName) false = false ∧
        (judges takenBack (.ofString "/w") upward'
          ((Path.ofString "/w/pkg/build").child ignoreFileName)).ignores (.ofString "/w")
            ((Path.ofString "/w").under [.ofString "pkg"]) true = false ∧
        (judges takenBack (.ofString "/w") upward'
          ((Path.ofString "/w/pkg/build").child ignoreFileName)).ignores (.ofString "/w")
            ((Path.ofString "/w").under [.ofString "pkg", .ofString "build"]) true = false) =
              true :=
    exists_ok_of_map (by decide +kernel)
  obtain rfl := Except.ok.inj (hgathered.upward_eq.symm.trans hupward')
  rw [decide_eq_true_iff, judges, ← hgathered.loaded_eq] at hrules
  obtain ⟨hnot, hfile, hpkg, hbuild⟩ := hrules
  have hproper : ∀ name ∈ [.ofString "pkg", .ofString "build"],
      (Component.name name).Proper := by decide +kernel
  have hnested : IsNested (.ofString "/w") ((Path.ofString "/w/pkg/build").child ignoreFileName) :=
    ⟨_, ⟨_, by decide, hproper, by decide⟩, rfl⟩
  refine ⟨r, upward, loaded, hr, hgathered, _, hnested, ⟨_, List.mem_singleton_self _,
    by decide +kernel⟩, hfile, ?_, hnot, hout⟩
  rintro _ ⟨names, hne, hnames, rfl⟩ ⟨more, hmore, hmoreProper, heq⟩
  have hall : names ++ more = [.ofString "pkg", .ofString "build", ignoreFileName] := by
    refine under_inj (p := .ofString "/w") (by decide) ?_ ?_ ?_
    · exact List.forall_mem_append.mpr ⟨hnames, hmoreProper⟩
    · exact List.forall_mem_append.mpr
        ⟨hproper, List.forall_mem_singleton.mpr proper_ignoreFileName⟩
    · rw [under_append, ← heq]
      decide
  match names with
  | [] => exact absurd rfl hne
  | [first] =>
    obtain ⟨rfl, -⟩ := List.cons.inj hall
    exact hpkg
  | [first, second] =>
    obtain ⟨rfl, hrest⟩ := List.cons.inj hall
    obtain ⟨rfl, -⟩ := List.cons.inj hrest
    exact hbuild
  | first :: second :: third :: names =>
    have hlength : names = [] ∧ more = [] := by simpa using congrArg List.length hall
    exact absurd hlength.2 hmore

end Typesweep.IgnoreResolver
