import Typesweep.Config.Members
import Typesweep.Proofs.Config.Inheritance
import Typesweep.Proofs.FileTree.Walk
import Typesweep.Proofs.Glob.Parsing
import Typesweep.Proofs.Order
import Typesweep.Proofs.Path.Order
import Typesweep.Proofs.Path.Shown
import Typesweep.Proofs.Text.Lines

/-!
# The members of a configuration

The walk for the members passes over directories that a left-out entry matches, by the same patterns
that it tests files with. This loses nothing: an entry that matches a directory matches everything
below it as well. So the members are those that a plain search finds, which enters every directory
but those of packages and version control and tests only files.

* `compilePatterns_below`: what lies below something that an entry matches.
* `FileTree.matchedFiles_eq_plainFiles`: the walk and the plain search.
* `FileTree.resolveProject_plain`: the project of a configuration with patterns.
-/

namespace Typesweep

open Text

/-! ## Patterns of entries -/

section Entries

variable {base literal path : Path} {entry wild t : Text}

theorem getLast?_escape (t : Text) (h : (Glob.escape t).getLast? = some '/') :
    t.getLast? = some '/' := by
  rcases List.eq_nil_or_concat t with rfl | ⟨start, c, rfl⟩
  · exact h
  · rw [List.concat_eq_append, Glob.escape, List.flatMap_append, List.flatMap_singleton] at h
    rw [List.concat_eq_append, List.getLast?_concat]
    unfold Glob.escapeChar at h
    split at h
    · rw [List.getLast?_append_of_ne_nil _ (List.cons_ne_nil _ _)] at h
      cases h
    · rwa [List.getLast?_concat] at h

/-- The components of an entry from the first wildcard on are neither the root nor a `.`. -/
theorem proper_of_mem_wild {c : Component}
    (h : c ∈ (Path.components (.ofText entry)).dropWhile fun c => !isWild c.text) : c.Proper := by
  obtain ⟨lead, rest, hcomponents, hrest, hlead⟩ := Path.exists_lead_components (.ofText entry)
  have hdrop : (Path.components (.ofText entry)).dropWhile (fun c => !isWild c.text) =
      rest.dropWhile fun c => !isWild c.text := by
    rw [hcomponents]
    rcases hlead with rfl | ⟨rfl, -⟩ | rfl
    · rfl
    · exact List.dropWhile_cons_of_pos (by decide)
    · exact List.dropWhile_cons_of_pos (by decide)
  rw [hdrop] at h
  exact hrest c ((List.dropWhile_sublist _).subset h)

theorem getLast?_splitEntry_wild (base : Path) (entry : Text) :
    (splitEntry base entry).2.getLast? ≠ some '/' := by
  generalize hwild : ((Path.components (.ofText entry)).dropWhile fun c => !isWild c.text) = wild
  have hproper : ∀ c ∈ wild, c.Proper := fun c hc => proper_of_mem_wild (hwild ▸ hc)
  show (joinWith ['/'] (List.map Component.text _)).getLast? ≠ some '/'
  rw [hwild, ← Path.text_joinWith, Ne, getLast?_ofBytes_eq_slash_iff]
  exact Path.getLast?_joinWith_raw hproper

/-- The first pattern of an entry does not end with a slash, unless it names the root. -/
theorem getLast?_anchored (base : Path) (entry : Text) :
    (entryPatterns (splitEntry base entry).1 (splitEntry base entry).2).1.getLast? ≠ some '/' ∨
      (entryPatterns (splitEntry base entry).1 (splitEntry base entry).2).1 = ['/'] := by
  have hwild := getLast?_splitEntry_wild base entry
  have hroot : (splitEntry base entry).1.text.getLast? = some '/' →
      (splitEntry base entry).1.text = ['/'] := by
    obtain ⟨p, hp⟩ : ∃ p : Path, (splitEntry base entry).1 = p.normalize :=
      Path.exists_absolutize_eq base _
    rw [hp]
    exact Path.getLast?_text_normalize
  generalize splitEntry base entry = split at hwild hroot
  unfold entryPatterns
  dsimp only
  split
  · by_cases hslash : (Glob.escape split.1.text).getLast? = some '/'
    · rw [hroot (getLast?_escape _ hslash)]
      exact .inr rfl
    · exact .inl hslash
  · next hne =>
    refine .inl ?_
    rw [List.getLast?_append_of_ne_nil _ (List.cons_ne_nil _ _)]
    obtain ⟨c, wild, hcons⟩ := List.exists_cons_of_ne_nil hne
    rwa [hcons, List.getLast?_cons_cons, ← hcons]

/-- The two patterns of an entry together match what is below everything that they match. -/
theorem accepts_below_of_entryPatterns {first second : Glob.Pattern} {dir : Text}
    (hslash : (entryPatterns literal wild).1.getLast? ≠ some '/' ∨
      (entryPatterns literal wild).1 = ['/'])
    (hfirst : Glob.parse (entryPatterns literal wild).1 = .ok first)
    (hsecond : Glob.parse (entryPatterns literal wild).2 = .ok second)
    (hdir : dir.getLast? ≠ some '/')
    (h : first.accepts false dir = true ∨ second.accepts false dir = true) (below : Text) :
    second.accepts false (dir ++ '/' :: below) = true := by
  have hbelow : (entryPatterns literal wild).2 =
      trimEnd (fun c => c = '/') (entryPatterns literal wild).1 ++ "/**/*".toList := rfl
  rw [hbelow] at hsecond
  rcases hslash with hslash | hroot
  · have hkept : ∀ c, (entryPatterns literal wild).1.getLast? = some c →
        decide (c = '/') = false := by
      intro c hc
      exact decide_eq_false fun heq => hslash (heq ▸ hc)
    rw [trimEnd_of_getLast? hkept] at hsecond
    exact Glob.accepts_below hfirst hslash hsecond h below
  · -- The pattern of the root itself matches no directory below it.
    rw [hroot] at hfirst hsecond
    obtain rfl : ⟨[.char '/']⟩ = first := Except.ok.inj hfirst
    have hnot : ¬Glob.Pattern.accepts ⟨[.char '/']⟩ false dir = true := by
      rw [Glob.accepts_iff_matches (Glob.placed_of_parse hfirst)]
      intro hmatches
      cases hmatches with
      | cons hrow hrest =>
        cases hrest
        rw [Glob.covers_char_iff.mp hrow] at hdir
        exact hdir rfl
    have hempty : Glob.parse [] = .ok ⟨[]⟩ := rfl
    exact Glob.accepts_below hempty nofun hsecond (.inr (h.resolve_left hnot)) below

theorem compilePatterns_below {entries : List Text} {patterns : List Glob.Pattern} {dir : Text}
    (hcompile : PatternSet.compilePatterns path base entries = .ok patterns)
    (hdir : dir.getLast? ≠ some '/') (h : ∃ p ∈ patterns, p.accepts false dir = true)
    (below : Text) : ∃ p ∈ patterns, p.accepts false (dir ++ '/' :: below) = true := by
  induction entries generalizing patterns with
  | nil =>
    obtain rfl := Except.ok.inj hcompile
    obtain ⟨p, hp, -⟩ := h
    exact absurd hp List.not_mem_nil
  | cons entry entries ih =>
    have hslash := getLast?_anchored base entry
    rw [PatternSet.compilePatterns] at hcompile
    dsimp only at hcompile
    split at hcompile
    · cases hcompile
    · next first hfirst =>
      split at hcompile
      · cases hcompile
      · next second hsecond =>
        split at hcompile
        · cases hcompile
        · next rest hrest =>
          obtain rfl := Except.ok.inj hcompile
          obtain ⟨p, hp, haccepts⟩ := h
          rw [List.mem_cons, List.mem_cons, ← or_assoc] at hp
          rcases hp with hp | hp
          · have hentry : first.accepts false dir = true ∨ second.accepts false dir = true := by
              rcases hp with rfl | rfl
              · exact .inl haccepts
              · exact .inr haccepts
            exact ⟨second, by simp,
              accepts_below_of_entryPatterns hslash hfirst hsecond hdir hentry below⟩
          · obtain ⟨q, hq, hbelow⟩ := ih hrest ⟨p, hp, haccepts⟩
            exact ⟨q, List.mem_cons_of_mem _ (List.mem_cons_of_mem _ hq), hbelow⟩

end Entries

/-! ## Pattern sets -/

namespace PatternSet

variable {s : PatternSet} {list : FileList} {path dir file : Path}

theorem patterns_of_compile (h : compile list path = .ok s) :
    compilePatterns path list.base list.entries = .ok s.patterns := by
  obtain ⟨patterns, hpatterns, rfl⟩ := exists_of_map_eq_ok h
  exact hpatterns

theorem exists_entry_of_mem_bases (h : compile list path = .ok s) (hdir : dir ∈ s.bases) :
    ∃ entry ∈ list.entries, dir = (splitEntry list.base entry).1 := by
  obtain ⟨patterns, -, rfl⟩ := exists_of_map_eq_ok h
  obtain ⟨entry, hentry, rfl⟩ := List.mem_map.mp (Order.mem_of_mem_sortDistinct hdir)
  exact ⟨entry, hentry, rfl⟩

/-- The bases are normal as far as they are absolute. -/
theorem isNormal_of_mem_bases (h : compile list path = .ok s) (hdir : dir ∈ s.bases)
    (habsolute : dir.isAbsolute = true) : dir.IsNormal := by
  obtain ⟨entry, -, rfl⟩ := exists_entry_of_mem_bases h hdir
  exact Path.isNormal_absolutize habsolute

/-- What lies below a path that is left out is left out as well. -/
theorem leavesOut_of_isAbove (h : compile list path = .ok s) (hne : dir.raw ≠ [])
    (hdir : dir.raw.getLast? ≠ some RawText.slash) (hleft : s.leavesOut dir = true)
    (hfile : dir.IsAbove file) : s.leavesOut file = true := by
  obtain ⟨below, hbelow⟩ := hfile.exists_text hne hdir
  rw [leavesOut, accepts, hbelow]
  exact List.any_eq_true.mpr
    (compilePatterns_below (patterns_of_compile h) (mt Path.getLast?_text_iff.mp hdir)
      (List.any_eq_true.mp hleft) below)

end PatternSet

/-! ## The walk and the plain search -/

/-- The entries that a configuration takes in, declared or not. -/
def Config.takenIn (c : Config) : FileList :=
  c.includes.getD ⟨c.path.configDir, defaultIncludes⟩

/-- The entries that a configuration leaves out, declared or not. -/
def Config.leftOut (c : Config) : FileList :=
  c.excludes.getD ⟨c.path.configDir, defaultExcludes⟩

namespace FileTree

variable {t : FileTree} {includes excludes : PatternSet} {list list' : FileList}
  {path file : Path} {project : Project}

/-- A configuration covers the files that it names one by one, or else those that its patterns
match; none if it takes no entries in. -/
theorem memberFiles_cases {c : Config} {files : List Path} (h : t.memberFiles c = .ok files) :
    (∃ list, c.files = some list ∧ files = t.namedFiles list) ∨
      c.files = none ∧ (files = [] ∨ ∃ includes excludes,
        PatternSet.compile c.takenIn c.path = .ok includes ∧
          PatternSet.compile c.leftOut c.path = .ok excludes ∧
            files = t.matchedFiles includes excludes) := by
  unfold memberFiles at h
  dsimp only at h
  split at h
  · next list hlist => exact .inl ⟨list, hlist, (Except.ok.inj h).symm⟩
  · next hnone _ => exact .inr ⟨hnone, .inl (Except.ok.inj h).symm⟩
  · next hnone _ =>
    split at h
    · cases h
    · next includes hincludes =>
      split at h
      · cases h
      · next excludes hexcludes =>
        exact .inr ⟨hnone, .inr ⟨includes, excludes, hincludes, hexcludes, (Except.ok.inj h).symm⟩⟩

/-- The files at or below the bases that are members, found by entering every directory but those of
packages and version control. -/
def plainFiles (t : FileTree) (includes excludes : PatternSet) : List Path :=
  includes.bases.flatMap fun base =>
    ((t.filesBelow (fun _ name => !isNeverWalked name) base).map Path.normalize).filter
      (isMember includes excludes)

/-- Passing over what the left-out entries match loses no member. -/
theorem matchedFiles_eq_plainFiles (hnames : t.NamesProper)
    (hincludes : PatternSet.compile list path = .ok includes)
    (hexcludes : PatternSet.compile list' path = .ok excludes) :
    t.matchedFiles includes excludes = t.plainFiles includes excludes := by
  refine List.flatMap_congr fun base hbase => ?_
  rw [List.filter_map, List.filter_map]
  congr 1
  cases habsolute : base.isAbsolute with
  | false => rw [filesBelow_of_relative habsolute, filesBelow_of_relative habsolute]
  | true =>
    have hnormal := PatternSet.isNormal_of_mem_bases hincludes hbase habsolute
    refine filter_filesBelow_congr hnames fun dir name hdir hdiffer file hfile => ?_
    -- The walks differ only at directories that are left out.
    have hleft : excludes.leavesOut dir = true := by
      by_contra hkept
      refine hdiffer ?_
      rw [entersForMembers, Bool.eq_false_iff.mpr hkept, Bool.not_false, Bool.and_true]
    have hdirNormal := hnormal.of_isAbove hdir
    have hfileNormal := hdirNormal.of_isAbove hfile
    obtain ⟨hne, hslash⟩ := hdir.raw_ends
    have hfileLeft : excludes.leavesOut file = true :=
      PatternSet.leavesOut_of_isAbove hexcludes hne hslash hleft hfile
    show isMember includes excludes file.normalize = false
    rw [hfileNormal.2, isMember, hfileLeft, Bool.not_true, Bool.and_false]

/-- A file that the plain search finds and keeps: one that no pattern of an entry left out matches,
and some pattern of an entry taken in, whether or not the search started at the base of that one. -/
structure IsPlainMember (t : FileTree) (includes excludes : PatternSet) (file : Path) : Prop where
  visited : ∃ base ∈ includes.bases,
    ∃ found ∈ t.filesBelow (fun _ name => !isNeverWalked name) base, file = found.normalize
  not_config : file.fileName? ≠ some configName
  taken_in : ∃ pattern ∈ includes.patterns, pattern.accepts true file.text = true
  not_left_out : ∀ pattern ∈ excludes.patterns, pattern.accepts false file.text = false

theorem isMember_iff :
    isMember includes excludes file = true ↔ file.fileName? ≠ some configName ∧
      (∃ pattern ∈ includes.patterns, pattern.accepts true file.text = true) ∧
        ∀ pattern ∈ excludes.patterns, pattern.accepts false file.text = false := by
  simp [isMember, Path.isConfig, PatternSet.takesIn, PatternSet.leavesOut, PatternSet.accepts,
    and_assoc]

theorem mem_plainFiles :
    file ∈ t.plainFiles includes excludes ↔ t.IsPlainMember includes excludes file := by
  simp only [plainFiles, List.mem_flatMap, List.mem_filter, List.mem_map, isMember_iff]
  constructor
  · rintro ⟨base, hbase, ⟨found, hfound, rfl⟩, hconfig, htaken, hleft⟩
    exact ⟨⟨base, hbase, found, hfound, rfl⟩, hconfig, htaken, hleft⟩
  · rintro ⟨⟨base, hbase, found, hfound, rfl⟩, hconfig, htaken, hleft⟩
    exact ⟨base, hbase, ⟨found, hfound, rfl⟩, hconfig, htaken, hleft⟩

theorem isNormal_of_mem_plainFiles (hnames : t.NamesProper)
    (hincludes : PatternSet.compile list path = .ok includes)
    (h : file ∈ t.plainFiles includes excludes) : file.IsNormal := by
  obtain ⟨base, hbase, found, hfound, rfl⟩ := (mem_plainFiles.mp h).visited
  have hnormal := PatternSet.isNormal_of_mem_bases hincludes hbase
    (isAbsolute_of_mem_filesBelow hfound)
  have hfoundNormal : found.IsNormal := isNormal_of_mem_filesBelow hnames hnormal hfound
  rw [hfoundNormal.2]
  exact hfoundNormal

/-- Files that were found by different ways are kept once. -/
theorem mem_sortedDistinct_plainFiles (hnames : t.NamesProper)
    (hincludes : PatternSet.compile list path = .ok includes) :
    file ∈ Path.sortedDistinct (t.plainFiles includes excludes) ↔
      t.IsPlainMember includes excludes file := by
  rw [← mem_plainFiles]
  refine Order.mem_sortDistinct_iff fun f hf g hg heq => ?_
  exact (isNormal_of_mem_plainFiles hnames hincludes hf).eq_of_same
    (isNormal_of_mem_plainFiles hnames hincludes hg) (Path.compare_eq_iff.mp heq)

/-- A configuration gives a project when it covers some files. -/
theorem resolveProject_eq_some_iff :
    t.resolveProject path = .ok (some project) ↔
      ∃ c files, Config.load t path = .ok c ∧ t.memberFiles c = .ok files ∧ files ≠ [] ∧
        project = .ofFiles path files c.noEmit := by
  rw [resolveProject]
  cases hload : Config.load t path with
  | error e => simp
  | ok c =>
    dsimp only
    cases hmembers : t.memberFiles c with
    | error e => simp [hmembers]
    | ok files =>
      cases files with
      | nil => simp [hmembers]
      | cons file files => simpa [hmembers] using eq_comm

/-- The project of a configuration with patterns is that of the plain search; there is none if this
finds nothing. -/
theorem resolveProject_plain {c : Config} (hnames : t.NamesProper)
    (hload : Config.load t path = .ok c) (hfiles : c.files = none)
    (hentries : ∀ list, c.includes = some list → list.entries ≠ [])
    (hincludes : PatternSet.compile (c.includes.getD ⟨path.configDir, defaultIncludes⟩) path =
      .ok includes)
    (hexcludes : PatternSet.compile (c.excludes.getD ⟨path.configDir, defaultExcludes⟩) path =
      .ok excludes) :
    ∃ found : Option Project, t.resolveProject path = .ok found ∧
      (found = none ↔ ∀ file, ¬t.IsPlainMember includes excludes file) ∧
        ∀ p, found = some p → p.path = path ∧ p.noEmit = c.noEmit ∧
          (p.files.Pairwise fun f g => f.compare g = .lt) ∧
            ∀ file, file ∈ p.files ↔ t.IsPlainMember includes excludes file := by
  have hpath : c.path = path := (Config.loadChain_isFold (Config.loadChain_of_load hload)).1
  have hmembers : t.memberFiles c = .ok (t.plainFiles includes excludes) := by
    rw [← matchedFiles_eq_plainFiles hnames hincludes hexcludes]
    unfold memberFiles
    dsimp only
    rw [hpath, hfiles]
    split
    · next heq => cases heq
    · next hempty => exact absurd rfl (hentries _ hempty)
    · rw [hincludes]
      dsimp only
      rw [hexcludes]
  have hfound : ∀ file, file ∈ t.plainFiles includes excludes ↔
      t.IsPlainMember includes excludes file := fun _ => mem_plainFiles
  cases hplain : t.plainFiles includes excludes with
  | nil =>
    rw [hplain] at hfound hmembers
    refine ⟨none, ?_, ?_, nofun⟩
    · rw [resolveProject, hload]
      dsimp only
      rw [hmembers]
    · simpa using fun file => (hfound file).not.mp List.not_mem_nil
  | cons first rest =>
    have hproject : t.resolveProject path =
        .ok (some (.ofFiles path (t.plainFiles includes excludes) c.noEmit)) := by
      rw [resolveProject, hload]
      dsimp only
      rw [hmembers, hplain]
    refine ⟨_, hproject, ?_, ?_⟩
    · refine ⟨nofun, fun hnone => absurd ((hfound first).mp ?_) (hnone first)⟩
      rw [hplain]
      exact List.mem_cons_self
    · rintro p hp
      obtain rfl := Option.some.inj hp
      exact ⟨rfl, rfl, Order.sortDistinct_pairwise _, fun file =>
        mem_sortedDistinct_plainFiles hnames hincludes⟩

/-- A configuration with two bases, one in the other, and a directory that is left out. -/
def overlappingBases : FileTree :=
  let config := "\x7b\"include\": [\"src\", \"src/sub\"], \"exclude\": [\"src/gen\"]\x7d"
  ⟨[([.ofString "r", .ofString "tsconfig.json"], .file (Text.toUtf8 config.toList) false),
    ([.ofString "r", .ofString "src", .ofString "sub", .ofString "b.ts"], .file [] false),
    ([.ofString "r", .ofString "src", .ofString "gen", .ofString "c.ts"], .file [] false),
    ([.ofString "r", .ofString "src", .ofString "gen"], .dir),
    ([.ofString "r", .ofString "src", .ofString "sub"], .dir),
    ([.ofString "r", .ofString "src"], .dir), ([.ofString "r"], .dir)]⟩

theorem resolveProject_plain_overlappingBases :
    ∃ includes excludes p,
      overlappingBases.resolveProject (.ofString "/r/tsconfig.json") = .ok (some p) ∧
        .ofString "/r/src/sub/b.ts" ∈ p.files ∧ .ofString "/r/src/gen/c.ts" ∉ p.files ∧
          ∀ file, file ∈ p.files ↔ overlappingBases.IsPlainMember includes excludes file := by
  obtain ⟨c, hload, -, hfiles, hincludes, hexcludes⟩ :=
    exists_load_of_lists overlappingBases (.ofString "/r/tsconfig.json")
      (some ["src".toList, "src/sub".toList]) (some ["src/gen".toList]) (by decide +kernel)
  obtain ⟨includes, excludes, hi, he, hplain⟩ : ∃ includes excludes,
      PatternSet.compile ⟨.ofString "/r", ["src".toList, "src/sub".toList]⟩
        (.ofString "/r/tsconfig.json") = .ok includes ∧
      PatternSet.compile ⟨.ofString "/r", ["src/gen".toList]⟩ (.ofString "/r/tsconfig.json") =
        .ok excludes ∧
      overlappingBases.plainFiles includes excludes =
        [.ofString "/r/src/sub/b.ts", .ofString "/r/src/sub/b.ts"] :=
    ⟨_, _, rfl, rfl, by decide +kernel⟩
  have hnames : overlappingBases.NamesProper := by
    unfold NamesProper Component.Proper
    decide +kernel
  obtain ⟨found, hfound, hnone, hmembers⟩ := resolveProject_plain hnames hload hfiles
    (by
      rw [hincludes]
      rintro list ⟨⟩
      exact List.cons_ne_nil _ _)
    (by rw [hincludes]; exact hi) (by rw [hexcludes]; exact he)
  have hmember : overlappingBases.IsPlainMember includes excludes (.ofString "/r/src/sub/b.ts") :=
    mem_plainFiles.mp (by rw [hplain]; exact List.mem_cons_self)
  have hother :
      ¬overlappingBases.IsPlainMember includes excludes (.ofString "/r/src/gen/c.ts") := by
    rw [← mem_plainFiles, hplain]
    decide
  cases found with
  | none => exact absurd hmember (hnone.mp rfl _)
  | some p =>
    obtain ⟨-, -, -, hfiles⟩ := hmembers p rfl
    exact ⟨includes, excludes, p, hfound, (hfiles _).mpr hmember, mt (hfiles _).mp hother, hfiles⟩

end FileTree

end Typesweep
