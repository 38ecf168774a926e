import Typesweep.Proofs.Config.Loading
import Typesweep.Proofs.Config.Reached
import Typesweep.Proofs.Config.Selection
import Typesweep.Proofs.FileTree.Removal

/-!
# The files of a project

Whatever a configuration declares, and wherever it takes its lists over from, the files of its
project are written in one way only. Each is a file of the tree, by a normal path, and no
configuration. They ascend, so none is listed twice. So the files of different projects can be
compared by their paths.

* `isAbsolute_base_of_lastList`: the directories that lists are relative to.
* `FileTree.IsListable`, `FileTree.isListable_of_mem_namedFiles`,
  `FileTree.isListable_of_mem_matchedFiles`: what a project may list, and that members are such.
* `FileTree.resolveProject_listable`: the main result.
-/

namespace Typesweep

open Typesweep.Path

variable {t : FileTree} {path dir file : Path} {specs : List Text} {visits order : List Visit}
  {part : Declaration → Option (List Text)} {list : FileList} {c : Config} {files : List Path}
  {p : Project}

/-! ## The directories of lists -/

namespace FileTree

theorem Unfolds.forall_mem_read (h : t.Unfolds dir specs visits) :
    ∀ v ∈ visits, t.readDeclaration v.path = .ok v.declaration := by
  induction h with
  | nil => exact List.forall_mem_nil _
  | cons _ hread _ _ ihabove ihrest =>
    exact List.forall_mem_append.mpr ⟨ihabove, List.forall_mem_cons.mpr ⟨hread, ihrest⟩⟩

theorem PostOrder.forall_mem_read (h : t.PostOrder path order) :
    ∀ v ∈ order, t.readDeclaration v.path = .ok v.declaration := by
  obtain ⟨d, above, hread, habove, rfl⟩ := h
  exact List.forall_mem_append.mpr
    ⟨habove.forall_mem_read, List.forall_mem_singleton.mpr hread⟩

theorem PostOrder.isFile (h : t.PostOrder path order) : t.isFile path = true := by
  obtain ⟨d, above, hread, -, -⟩ := h
  exact isFile_of_readDeclaration hread

end FileTree

/-- A list is relative to the directory of a configuration that was read. -/
theorem isAbsolute_base_of_lastList (horder : t.PostOrder path order)
    (h : lastList part order = some list) : list.base.isAbsolute = true := by
  obtain ⟨v, hv, hlist⟩ := List.mem_filterMap.mp (List.mem_of_getLast? h)
  obtain ⟨entries, -, rfl⟩ := Option.map_eq_some_iff.mp hlist
  exact (FileTree.prefix_configDir
    (FileTree.isFile_of_readDeclaration (horder.forall_mem_read v hv))).1

/-- The entries that a configuration takes in are relative to its own directory if it declares
none. -/
theorem Config.isAbsolute_base_takenIn (horder : t.PostOrder path order) (hpath : c.path = path)
    (hfold : c.IsFold order) : c.takenIn.base.isAbsolute = true := by
  rw [takenIn, hfold.includes, hpath]
  cases hlast : lastList Declaration.includes order with
  | none => exact (FileTree.prefix_configDir horder.isFile).1
  | some list => exact isAbsolute_base_of_lastList horder hlast

namespace FileTree

/-! ## Members -/

/-- A file as projects list it. -/
structure IsListable (t : FileTree) (file : Path) : Prop where
  normal : file.IsNormal
  not_config : file.fileName? ≠ some configName
  is_file : t.isFile file = true

theorem isListable_of_mem_namedFiles (hbase : list.base.isAbsolute = true)
    (h : file ∈ t.namedFiles list) :
    t.IsListable file ∧ ∃ entry ∈ list.entries, file = list.base.absolutize (.ofText entry) := by
  obtain ⟨hmem, hkept⟩ := List.mem_filter.mp h
  obtain ⟨entry, hentry, rfl⟩ := List.mem_map.mp hmem
  rw [Bool.and_eq_true, Bool.not_eq_true', isConfig, decide_eq_false_iff_not] at hkept
  exact ⟨⟨isNormal_absolutize_of_isAbsolute hbase _, hkept.2, hkept.1⟩, entry, hentry, rfl⟩

/-- The bases of the walks are normal, so the walks find files by paths that need no normalizing. -/
theorem isListable_of_mem_matchedFiles (hnames : t.NamesProper)
    (hbase : list.base.isAbsolute = true) {includes excludes : PatternSet}
    (hcompile : PatternSet.compile list path = .ok includes)
    (h : file ∈ t.matchedFiles includes excludes) :
    t.IsListable file ∧
      ∃ dir ∈ includes.bases, file ∈ t.filesBelow (entersForMembers excludes) dir := by
  obtain ⟨dir, hdir, hfile⟩ := List.mem_flatMap.mp h
  obtain ⟨hmem, hmember⟩ := List.mem_filter.mp hfile
  obtain ⟨found, hfound, rfl⟩ := List.mem_map.mp hmem
  have hnormal : dir.IsNormal := by
    obtain ⟨entry, -, rfl⟩ := PatternSet.exists_entry_of_mem_bases hcompile hdir
    exact isNormal_absolutize_of_isAbsolute hbase _
  have hfoundNormal : found.IsNormal := isNormal_of_mem_filesBelow hnames hnormal hfound
  rw [hfoundNormal.2] at hmember ⊢
  obtain ⟨place, content, executable, hfind, hentry⟩ := exists_find_of_mem_filesBelow hfound
  exact ⟨⟨hfoundNormal, (isMember_iff.mp hmember).1,
    isFile_iff.mpr ⟨place, content, executable, hfind, hentry⟩⟩, dir, hdir, hfound⟩

/-- Where a file of a project comes from: an entry that names it, if the configuration names its
files one by one, and else a walk from one of the bases of its patterns. -/
structure IsFoundFor (t : FileTree) (c : Config) (file : Path) : Prop where
  named : ∀ list, c.files = some list →
    ∃ entry ∈ list.entries, file = list.base.absolutize (.ofText entry)
  walked : c.files = none → ∃ includes excludes,
    PatternSet.compile c.takenIn c.path = .ok includes ∧
      PatternSet.compile c.leftOut c.path = .ok excludes ∧
        ∃ dir ∈ includes.bases, file ∈ t.filesBelow (entersForMembers excludes) dir

theorem listable_of_mem_memberFiles (hnames : t.NamesProper) (horder : t.PostOrder path order)
    (hpath : c.path = path) (hfold : c.IsFold order) (h : t.memberFiles c = .ok files)
    (hmem : file ∈ files) : t.IsListable file ∧ t.IsFoundFor c file := by
  rcases memberFiles_cases h with
    ⟨list, hlist, rfl⟩ | ⟨hnone, rfl | ⟨includes, excludes, hincludes, hexcludes, rfl⟩⟩
  · have hbase := isAbsolute_base_of_lastList horder (hfold.files.symm.trans hlist)
    obtain ⟨hlistable, hnamed⟩ := isListable_of_mem_namedFiles hbase hmem
    refine ⟨hlistable, fun list' hlist' => ?_, fun hnone => ?_⟩
    · obtain rfl := Option.some.inj (hlist.symm.trans hlist')
      exact hnamed
    · rw [hnone] at hlist
      cases hlist
  · exact absurd hmem List.not_mem_nil
  · obtain ⟨hlistable, hwalked⟩ := isListable_of_mem_matchedFiles hnames
      (c.isAbsolute_base_takenIn horder hpath hfold) hincludes hmem
    refine ⟨hlistable, fun list hlist => ?_, fun _ => ⟨_, _, hincludes, hexcludes, hwalked⟩⟩
    rw [hnone] at hlist
    cases hlist

/-- A project stands at the path of its configuration, in the directory of that. Its files are
listed in ascending order, at least one, and each of them is one that a project may list. -/
theorem resolveProject_listable (hnames : t.NamesProper)
    (h : t.resolveProject path = .ok (some p)) :
    p.path = path ∧ path.parent? = some p.dir ∧ p.files ≠ [] ∧
      (p.files.Pairwise fun f g => f.compare g = .lt) ∧
        ∃ c, Config.load t path = .ok c ∧
          ∀ file ∈ p.files, t.IsListable file ∧ t.IsFoundFor c file := by
  obtain ⟨c, files, hload, hmembers, hne, rfl⟩ := resolveProject_eq_some_iff.mp h
  obtain ⟨hpath, order, horder, hfold⟩ :=
    Config.loadChain_isFold (Config.loadChain_of_load hload)
  obtain ⟨dir, hdir⟩ := exists_parent_of_isFile horder.isFile
  refine ⟨rfl, ?_, ?_, Order.sortDistinct_pairwise _, c, hload, fun file hfile => ?_⟩
  · rw [hdir, Project.ofFiles, hdir]
    rfl
  · obtain ⟨file, hfile⟩ := List.exists_mem_of_ne_nil _ hne
    obtain ⟨kept, hkept, -⟩ : ∃ kept ∈ sortedDistinct files, file.compare kept = .eq :=
      Order.exists_mem_sortDistinct hfile
    exact List.ne_nil_of_mem hkept
  · exact listable_of_mem_memberFiles hnames horder hpath hfold hmembers
      (Order.mem_of_mem_sortDistinct hfile)

/-- A configuration that takes in a directory, and files behind a link in that directory. A walk of
the directory follows the link too, so it finds these files a second time. -/
def linkedInside : FileTree :=
  let config := "\x7b\"include\": [\"src\", \"src/link/*\"]\x7d"
  ⟨[([.ofString "r", .ofString "tsconfig.json"], .file (Text.toUtf8 config.toList) false),
    ([.ofString "r", .ofString "src", .ofString "tsconfig.json"], .file [] false),
    ([.ofString "r", .ofString "src", .ofString "b.ts"], .file [] false),
    ([.ofString "r", .ofString "src", .ofString "link"], .link (.ofString "../lib")),
    ([.ofString "r", .ofString "lib", .ofString "a.ts"], .file [] false),
    ([.ofString "r", .ofString "lib"], .dir), ([.ofString "r", .ofString "src"], .dir),
    ([.ofString "r"], .dir)]⟩

theorem resolveProject_listable_linkedInside :
    linkedInside.NamesProper ∧
      ∃ p, linkedInside.resolveProject (.ofString "/r/tsconfig.json") = .ok (some p) ∧
        p.files = [.ofString "/r/src/b.ts", .ofString "/r/src/link/a.ts"] ∧
          ∀ file ∈ p.files, linkedInside.IsListable file := by
  have hnames : linkedInside.NamesProper := by
    unfold NamesProper Component.Proper
    decide +kernel
  obtain ⟨c, hload, hpath, hfiles, hincludes, hexcludes⟩ :=
    exists_load_of_lists linkedInside (.ofString "/r/tsconfig.json")
      (some ["src".toList, "src/link/*".toList]) none (by decide +kernel)
  obtain ⟨files, hmembers, hsorted⟩ : ∃ files, linkedInside.memberFiles c = .ok files ∧
      sortedDistinct files = [.ofString "/r/src/b.ts", .ofString "/r/src/link/a.ts"] := by
    unfold memberFiles
    dsimp only
    rw [hpath, hfiles, hincludes, hexcludes]
    exact ⟨[.ofString "/r/src/b.ts", .ofString "/r/src/link/a.ts",
      .ofString "/r/src/link/a.ts"], by decide +kernel, by decide +kernel⟩
  have hne : files ≠ [] := by
    rintro rfl
    cases hsorted
  have hresolve := resolveProject_eq_some_iff.mpr ⟨_, _, hload, hmembers, hne, rfl⟩
  obtain ⟨-, -, -, -, c', -, hlistable⟩ := resolveProject_listable hnames hresolve
  exact ⟨hnames, _, hresolve, hsorted, fun file hfile => (hlistable file hfile).1⟩

end FileTree

end Typesweep
