import Typesweep.Proofs.Config.Members

/-!
# What the lists of a configuration select

The entries of a list act in three places: they are the bases of the walk, they are tested on each
file, and those left out keep the walk out of directories. Still the members of a configuration
depend on the entries of its two lists one by one: a file is a member if some entry taken in leads
to it, some entry taken in matches it, and no entry left out does. So only the sets of entries
count. An entry more that is taken in can only add members, and one more that is left out only
remove some.

* `compiles_iff`, `isOf_of_compile`: a list compiles when each of its entries does, and its set is
  then that of the entries.
* `FileTree.IsSelected`, `FileTree.exists_projectFiles`: the members, said of the entries.
* `FileTree.projectFiles_entries`: the main result.
-/

namespace Typesweep

variable {base dir dir' path file : Path} {entry : Text} {entries includes excludes : List Text}
  {list list' : FileList} {pattern : Glob.Pattern} {s s' : PatternSet}

/-! ## Entries -/

/-- The texts of the two patterns of an entry. -/
def patternTexts (base : Path) (entry : Text) : Text × Text :=
  entryPatterns (splitEntry base entry).1 (splitEntry base entry).2

/-- A pattern of an entry: the one of what it names, or the one of what lies below that. -/
def IsEntryPattern (base : Path) (entry : Text) (pattern : Glob.Pattern) : Prop :=
  Glob.parse (patternTexts base entry).1 = .ok pattern ∨
    Glob.parse (patternTexts base entry).2 = .ok pattern

/-- Both texts of an entry are patterns. -/
def EntryCompiles (base : Path) (entry : Text) : Prop :=
  (∃ first, Glob.parse (patternTexts base entry).1 = .ok first) ∧
    ∃ second, Glob.parse (patternTexts base entry).2 = .ok second

namespace PatternSet

/-- The list has a pattern set. -/
def Compiles (list : FileList) (path : Path) : Prop :=
  ∃ s, compile list path = .ok s

/-- The patterns and the bases of a set are those of the entries of a list; of the bases only the
absolute ones matter, as no others can be walked. -/
structure IsOf (s : PatternSet) (list : FileList) : Prop where
  mem_patterns : ∀ pattern, pattern ∈ s.patterns ↔
    ∃ entry ∈ list.entries, IsEntryPattern list.base entry pattern
  mem_bases : ∀ dir : Path, dir.isAbsolute = true →
    (dir ∈ s.bases ↔ ∃ entry ∈ list.entries, dir = (splitEntry list.base entry).1)

theorem compilePatterns_cons_eq_ok_iff {patterns : List Glob.Pattern} :
    compilePatterns path base (entry :: entries) = .ok patterns ↔
      ∃ first second rest, Glob.parse (patternTexts base entry).1 = .ok first ∧
        Glob.parse (patternTexts base entry).2 = .ok second ∧
          compilePatterns path base entries = .ok rest ∧ patterns = first :: second :: rest := by
  rw [compilePatterns]
  dsimp only
  split
  · next heq =>
    have hfirst : Glob.parse (patternTexts base entry).1 = .error _ := heq
    simp [hfirst]
  · next first heq =>
    have hfirst : Glob.parse (patternTexts base entry).1 = .ok first := heq
    split
    · next heq =>
      have hsecond : Glob.parse (patternTexts base entry).2 = .error _ := heq
      simp [hsecond]
    · next second heq =>
      have hsecond : Glob.parse (patternTexts base entry).2 = .ok second := heq
      cases compilePatterns path base entries with
      | error e => simp
      | ok rest => simpa [hfirst, hsecond] using eq_comm

theorem exists_compilePatterns_iff :
    (∃ patterns, compilePatterns path base entries = .ok patterns) ↔
      ∀ entry ∈ entries, EntryCompiles base entry := by
  induction entries with
  | nil => exact ⟨fun _ => List.forall_mem_nil _, fun _ => ⟨[], rfl⟩⟩
  | cons entry entries ih =>
    rw [List.forall_mem_cons, ← ih]
    constructor
    · rintro ⟨patterns, h⟩
      obtain ⟨first, second, rest, hfirst, hsecond, hrest, -⟩ := compilePatterns_cons_eq_ok_iff.mp h
      exact ⟨⟨⟨first, hfirst⟩, second, hsecond⟩, rest, hrest⟩
    · rintro ⟨⟨⟨first, hfirst⟩, second, hsecond⟩, rest, hrest⟩
      exact ⟨_, compilePatterns_cons_eq_ok_iff.mpr
        ⟨first, second, rest, hfirst, hsecond, hrest, rfl⟩⟩

theorem mem_of_compilePatterns {patterns : List Glob.Pattern}
    (h : compilePatterns path base entries = .ok patterns) :
    pattern ∈ patterns ↔ ∃ entry ∈ entries, IsEntryPattern base entry pattern := by
  induction entries generalizing patterns with
  | nil =>
    obtain rfl := Except.ok.inj h
    simp
  | cons entry entries ih =>
    obtain ⟨first, second, rest, hfirst, hsecond, hrest, rfl⟩ := compilePatterns_cons_eq_ok_iff.mp h
    have hentry : IsEntryPattern base entry pattern ↔ pattern = first ∨ pattern = second := by
      rw [IsEntryPattern, hfirst, hsecond, Except.ok.injEq, Except.ok.injEq, eq_comm,
        eq_comm (b := pattern)]
    rw [List.mem_cons, List.mem_cons, ih hrest, List.exists_mem_cons_iff, hentry, or_assoc]

/-- A list compiles when each of its entries does. -/
theorem compiles_iff :
    Compiles list path ↔ ∀ entry ∈ list.entries, EntryCompiles list.base entry := by
  rw [← exists_compilePatterns_iff]
  constructor
  · rintro ⟨s, hs⟩
    exact ⟨s.patterns, patterns_of_compile hs⟩
  · rintro ⟨patterns, hpatterns⟩
    exact ⟨_, by rw [compile, hpatterns]; rfl⟩

theorem Compiles.of_subset (h : Compiles ⟨dir, entries⟩ path) (hsub : includes ⊆ entries) :
    Compiles ⟨dir, includes⟩ path :=
  compiles_iff.mpr fun entry hentry => compiles_iff.mp h entry (hsub hentry)

theorem Compiles.cons (h : Compiles ⟨dir, entries⟩ path) (hentry : Compiles ⟨dir, [entry]⟩ path) :
    Compiles ⟨dir, entry :: entries⟩ path :=
  compiles_iff.mpr (List.forall_mem_cons.mpr
    ⟨compiles_iff.mp hentry entry (List.mem_singleton_self entry), compiles_iff.mp h⟩)

/-- Of bases that are the same the set keeps one. -/
theorem exists_base_same (h : compile list path = .ok s) (hentry : entry ∈ list.entries) :
    ∃ dir ∈ s.bases, (splitEntry list.base entry).1.Same dir := by
  obtain ⟨patterns, -, rfl⟩ := exists_of_map_eq_ok h
  obtain ⟨dir, hdir, heq⟩ : ∃ dir ∈ Path.sortedDistinct (list.entries.map fun entry =>
      (splitEntry list.base entry).1), (splitEntry list.base entry).1.compare dir = .eq :=
    Order.exists_mem_sortDistinct (List.mem_map_of_mem hentry)
  exact ⟨dir, hdir, Path.compare_eq_iff.mp heq⟩

theorem isOf_of_compile (h : compile list path = .ok s) : s.IsOf list where
  mem_patterns _ := mem_of_compilePatterns (patterns_of_compile h)
  mem_bases dir hdir := by
    refine ⟨exists_entry_of_mem_bases h, ?_⟩
    rintro ⟨entry, hentry, rfl⟩
    obtain ⟨kept, hkept, hsame⟩ := exists_base_same h hentry
    obtain ⟨other, -, rfl⟩ := exists_entry_of_mem_bases h hkept
    -- The one that is kept is this one, as both are normal.
    have hnormal : ∀ entry, (splitEntry list.base entry).1.isAbsolute = true →
        (splitEntry list.base entry).1.IsNormal := fun _ => Path.isNormal_absolutize
    rwa [(hnormal entry hdir).eq_of_same (hnormal other (hsame.isAbsolute hdir)) hsame]

namespace IsOf

/-- Some pattern of the set is one of some entry. -/
theorem exists_mem_patterns_iff (h : s.IsOf list) {P : Glob.Pattern → Prop} :
    (∃ pattern ∈ s.patterns, P pattern) ↔
      ∃ entry ∈ list.entries, ∃ pattern, IsEntryPattern list.base entry pattern ∧ P pattern := by
  simp only [h.mem_patterns]
  constructor
  · rintro ⟨pattern, ⟨entry, hentry, hpattern⟩, hP⟩
    exact ⟨entry, hentry, pattern, hpattern, hP⟩
  · rintro ⟨entry, hentry, pattern, hpattern, hP⟩
    exact ⟨pattern, ⟨entry, hentry, hpattern⟩, hP⟩

/-- All patterns of the set are all patterns of all entries. -/
theorem forall_mem_patterns_iff (h : s.IsOf list) {P : Glob.Pattern → Prop} :
    (∀ pattern ∈ s.patterns, P pattern) ↔
      ∀ entry ∈ list.entries, ∀ pattern, IsEntryPattern list.base entry pattern → P pattern := by
  simp only [h.mem_patterns]
  constructor
  · intro hP entry hentry pattern hpattern
    exact hP pattern ⟨entry, hentry, hpattern⟩
  · rintro hP pattern ⟨entry, hentry, hpattern⟩
    exact hP entry hentry pattern hpattern

/-- What holds of absolute paths only is asked of the bases of the entries. -/
theorem exists_mem_bases_iff (h : s.IsOf list) {P : Path → Prop}
    (habsolute : ∀ dir, P dir → dir.isAbsolute = true) :
    (∃ dir ∈ s.bases, P dir) ↔ ∃ entry ∈ list.entries, P (splitEntry list.base entry).1 := by
  constructor
  · rintro ⟨dir, hdir, hP⟩
    obtain ⟨entry, hentry, rfl⟩ := (h.mem_bases dir (habsolute dir hP)).mp hdir
    exact ⟨entry, hentry, hP⟩
  · rintro ⟨entry, hentry, hP⟩
    exact ⟨_, (h.mem_bases _ (habsolute _ hP)).mpr ⟨entry, hentry, rfl⟩, hP⟩

end IsOf

end PatternSet

/-! ## Members -/

/-- The configuration with these two lists of patterns, and no files named one by one. -/
def Config.withLists (c : Config) (includes excludes : FileList) : Config :=
  { c with files := none, includes := some includes, excludes := some excludes }

namespace FileTree

variable {t : FileTree}

/-- The files that the project of a configuration lists. -/
def projectFiles (t : FileTree) (c : Config) : Except ConfigError (List Path) :=
  (t.memberFiles c).map Path.sortedDistinct

/-- A file that two lists of patterns select. -/
structure IsSelected (t : FileTree) (includes excludes : FileList) (file : Path) : Prop where
  reached : ∃ entry ∈ includes.entries,
    ∃ found ∈ t.filesBelow (fun _ name => !isNeverWalked name) (splitEntry includes.base entry).1,
      file = found.normalize
  not_config : file.fileName? ≠ some configName
  taken_in : ∃ entry ∈ includes.entries, ∃ pattern, IsEntryPattern includes.base entry pattern ∧
    pattern.accepts true file.text = true
  not_left_out : ∀ entry ∈ excludes.entries, ∀ pattern,
    IsEntryPattern excludes.base entry pattern → pattern.accepts false file.text = false

/-- More entries that are taken in and fewer that are left out select at least as much. -/
theorem IsSelected.mono {includes includes' excludes excludes' : List Text}
    (h : t.IsSelected ⟨dir, includes⟩ ⟨dir', excludes⟩ file) (hincludes : includes ⊆ includes')
    (hexcludes : excludes' ⊆ excludes) : t.IsSelected ⟨dir, includes'⟩ ⟨dir', excludes'⟩ file where
  reached := by
    obtain ⟨entry, hentry, hreached⟩ := h.reached
    exact ⟨entry, hincludes hentry, hreached⟩
  not_config := h.not_config
  taken_in := by
    obtain ⟨entry, hentry, htaken⟩ := h.taken_in
    exact ⟨entry, hincludes hentry, htaken⟩
  not_left_out entry hentry := h.not_left_out entry (hexcludes hentry)

theorem isSelected_iff_isPlainMember (hs : s.IsOf list) (hs' : s'.IsOf list') :
    t.IsSelected list list' file ↔ t.IsPlainMember s s' file := by
  have hvisited := hs.exists_mem_bases_iff (P := fun dir => ∃ found ∈ t.filesBelow
      (fun _ name => !isNeverWalked name) dir, file = found.normalize)
    fun dir ⟨found, hfound, _⟩ => isAbsolute_of_mem_filesBelow hfound
  constructor
  · intro h
    exact ⟨hvisited.mpr h.reached, h.not_config, hs.exists_mem_patterns_iff.mpr h.taken_in,
      hs'.forall_mem_patterns_iff.mpr h.not_left_out⟩
  · intro h
    exact ⟨hvisited.mp h.visited, h.not_config, hs.exists_mem_patterns_iff.mp h.taken_in,
      hs'.forall_mem_patterns_iff.mp h.not_left_out⟩

/-- The project of a configuration with two lists of patterns lists the selected files. -/
theorem exists_projectFiles (hnames : t.NamesProper) (c : Config)
    (hincludes : PatternSet.Compiles list c.path) (hexcludes : PatternSet.Compiles list' c.path) :
    ∃ files, t.projectFiles (c.withLists list list') = .ok files ∧
      (files.Pairwise fun f g => f.compare g = .lt) ∧
        ∀ file, file ∈ files ↔ t.IsSelected list list' file := by
  obtain ⟨s, hs⟩ := hincludes
  obtain ⟨s', hs'⟩ := hexcludes
  have hplain : ∀ file, file ∈ Path.sortedDistinct (t.plainFiles s s') ↔
      t.IsSelected list list' file := fun file => by
    rw [mem_sortedDistinct_plainFiles hnames hs,
      isSelected_iff_isPlainMember (PatternSet.isOf_of_compile hs) (PatternSet.isOf_of_compile hs')]
  refine ⟨Path.sortedDistinct (t.plainFiles s s'), ?_, Order.sortDistinct_pairwise _, hplain⟩
  rw [← matchedFiles_eq_plainFiles hnames hs hs', projectFiles, memberFiles, Config.withLists]
  dsimp only
  obtain ⟨base, entries⟩ := list
  cases entries with
  | nil =>
    -- Without entries there are no bases to walk.
    obtain rfl := Except.ok.inj hs
    rfl
  | cons entry entries =>
    simp only [Option.getD_some, hs, hs', Except.map]

/-- The members depend on which entries the lists have, not on their order and repetition. An entry
more that is taken in removes none of them, and one more that is left out adds none. -/
theorem projectFiles_entries (hnames : t.NamesProper) (c : Config)
    (hincludes : PatternSet.Compiles ⟨dir, includes⟩ c.path)
    (hexcludes : PatternSet.Compiles ⟨dir', excludes⟩ c.path) :
    ∃ files, t.projectFiles (c.withLists ⟨dir, includes⟩ ⟨dir', excludes⟩) = .ok files ∧
      (∀ includes' excludes' : List Text, (∀ entry, entry ∈ includes' ↔ entry ∈ includes) →
        (∀ entry, entry ∈ excludes' ↔ entry ∈ excludes) →
          t.projectFiles (c.withLists ⟨dir, includes'⟩ ⟨dir', excludes'⟩) = .ok files) ∧
      (∀ entry, PatternSet.Compiles ⟨dir, [entry]⟩ c.path → ∃ more,
        t.projectFiles (c.withLists ⟨dir, entry :: includes⟩ ⟨dir', excludes⟩) = .ok more ∧
          files ⊆ more) ∧
      ∀ entry, PatternSet.Compiles ⟨dir', [entry]⟩ c.path → ∃ fewer,
        t.projectFiles (c.withLists ⟨dir, includes⟩ ⟨dir', entry :: excludes⟩) = .ok fewer ∧
          fewer ⊆ files := by
  obtain ⟨files, hfiles, hsorted, hmem⟩ := exists_projectFiles hnames c hincludes hexcludes
  refine ⟨files, hfiles, ?_, ?_, ?_⟩
  · intro includes' excludes' hsame hsame'
    obtain ⟨files', hfiles', hsorted', hmem'⟩ := exists_projectFiles hnames c
      (hincludes.of_subset fun entry => (hsame entry).mp)
      (hexcludes.of_subset fun entry => (hsame' entry).mp)
    have heq : files' = files := by
      refine Order.eq_of_mem_iff hsorted' hsorted fun file => ?_
      rw [hmem, hmem']
      exact ⟨fun h => h.mono (fun entry => (hsame entry).mp) fun entry => (hsame' entry).mpr,
        fun h => h.mono (fun entry => (hsame entry).mpr) fun entry => (hsame' entry).mp⟩
    rw [hfiles', heq]
  · intro entry hentry
    obtain ⟨more, hmore, -, hmem'⟩ :=
      exists_projectFiles hnames c (hincludes.cons hentry) hexcludes
    refine ⟨more, hmore, fun file hfile => (hmem' file).mpr ?_⟩
    exact ((hmem file).mp hfile).mono (List.subset_cons_self entry includes) (List.Subset.refl _)
  · intro entry hentry
    obtain ⟨fewer, hfewer, -, hmem'⟩ :=
      exists_projectFiles hnames c hincludes (hexcludes.cons hentry)
    refine ⟨fewer, hfewer, fun file hfile => (hmem file).mpr ?_⟩
    exact ((hmem' file).mp hfile).mono (List.Subset.refl _) (List.subset_cons_self entry excludes)

/-- A configuration in `/r` with these entries. -/
def listsInR (taken left : List Text) : Config :=
  ({ path := .ofString "/r/tsconfig.json" } : Config).withLists ⟨.ofString "/r", taken⟩
    ⟨.ofString "/r", left⟩

/-- The entries in another order and repeated, with one more taken in, and with one more left
out. -/
theorem projectFiles_entries_overlappingBases :
    overlappingBases.projectFiles (listsInR ["src".toList, "src/sub".toList] ["src/gen".toList]) =
        .ok [.ofString "/r/src/sub/b.ts"] ∧
      overlappingBases.projectFiles
          (listsInR ["src/sub".toList, "src".toList, "src/sub".toList] ["src/gen".toList]) =
        .ok [.ofString "/r/src/sub/b.ts"] ∧
      (∃ more, overlappingBases.projectFiles
          (listsInR ["*".toList, "src".toList, "src/sub".toList] ["src/gen".toList]) = .ok more ∧
        .ofString "/r/src/sub/b.ts" ∈ more) ∧
      ∃ fewer, overlappingBases.projectFiles
          (listsInR ["src".toList, "src/sub".toList] ["src/s*".toList, "src/gen".toList]) =
            .ok fewer ∧ fewer ⊆ [.ofString "/r/src/sub/b.ts"] := by
  have hnames : overlappingBases.NamesProper := by
    unfold NamesProper Component.Proper
    decide +kernel
  have hfound : overlappingBases.projectFiles
      (listsInR ["src".toList, "src/sub".toList] ["src/gen".toList]) =
        .ok [.ofString "/r/src/sub/b.ts"] := by decide +kernel
  have htaken : PatternSet.Compiles ⟨.ofString "/r", ["src".toList, "src/sub".toList]⟩
      (.ofString "/r/tsconfig.json") := ⟨_, rfl⟩
  have hleft : PatternSet.Compiles ⟨.ofString "/r", ["src/gen".toList]⟩
      (.ofString "/r/tsconfig.json") := ⟨_, rfl⟩
  obtain ⟨files, hfiles, hsame, hmore, hfewer⟩ :=
    projectFiles_entries hnames { path := .ofString "/r/tsconfig.json" } htaken hleft
  obtain rfl := Except.ok.inj (hfound.symm.trans hfiles)
  refine ⟨hfound, hsame _ _ (by simp [or_comm]) (by simp), ?_, ?_⟩
  · obtain ⟨more, heq, hsub⟩ := hmore "*".toList ⟨_, rfl⟩
    exact ⟨more, heq, hsub (List.mem_singleton_self _)⟩
  · exact hfewer "src/s*".toList ⟨_, rfl⟩

end FileTree

end Typesweep
