import Typesweep.Proofs.Config.Entries
import Typesweep.Proofs.FileTree.Placed
import Typesweep.Proofs.Plan.Making

/-!
# Moving a project

The text of the directory that a configuration lies in goes into every pattern, every base and every
path that the patterns are matched against. Nothing of that gives a name on the way to the directory
a meaning: a project whose entries stay below its directory has the same members wherever the
directory is, whether the names down to it hold wildcards, brackets or leading dots.

What is shown of a project is moved with it: its paths get the new directory for the old one at
their start, and so does the pattern in which a fault has its place. This place is counted from the
start of the pattern, so it moves on by as many characters as the new directory, escaped, is longer
than the old one (`Glob.Fault.moved`); the entry and the kind of the fault stay.

* `Project.moved`, `ConfigError.moved`: what is shown of a project after a move.
* `FileTree.exists_memberFiles`: the members by the names below the directory.
* `FileTree.resolveProject_moved`: the main result.
-/

namespace Typesweep

open Text Typesweep.Path Glob

/-! ## What moves -/

/-- The fault of a pattern that begins with `dir'` instead of `dir`, both escaped: its place is as
far behind `dir'` as it was behind `dir`. -/
def Glob.Fault.moved (f : Fault) (dir dir' : Path) : Fault :=
  { f with position := f.position - (escape dir.text).length + (escape dir'.text).length }

/-- The error with `dir'` instead of `dir` at the start of its path and of its pattern. -/
def ConfigError.moved (e : ConfigError) (dir dir' : Path) : ConfigError :=
  match e with
  | .unreadable path cause => .unreadable (path.moved dir dir') cause
  | .malformed path line cause => .malformed (path.moved dir dir') line cause
  | .baseNotFound spec origin => .baseNotFound spec (origin.moved dir dir')
  | .circular path => .circular (path.moved dir dir')
  | .endless path => .endless (path.moved dir dir')
  | .badPattern entry path fault =>
    .badPattern entry (path.moved dir dir') (fault.moved dir dir')

/-- The project with `dir'` instead of `dir` at the start of its paths. -/
def Project.moved (p : Project) (dir dir' : Path) : Project where
  path := p.path.moved dir dir'
  dir := p.dir.moved dir dir'
  files := p.files.map (·.moved dir dir')
  noEmit := p.noEmit

variable {dir dir' path : Path} {entries : List Text} {names : List RawText}

theorem entryError_moved (dir dir' path : Path) (e : Text × Fault) :
    (entryError dir path e).moved dir dir' = entryError dir' (path.moved dir dir') e := by
  have hposition : (escape dir.text).length + e.2.position - (escape dir.text).length +
      (escape dir'.text).length = (escape dir'.text).length + e.2.position := by
    omega
  rw [entryError, entryError, ConfigError.moved, Fault.moved, Fault.behind, hposition, Fault.behind]

/-- A declaration that builds on nothing and whose entries stay below its directory. -/
structure Declaration.IsLocal (d : Declaration) : Prop where
  no_bases : d.bases = []
  entries_local : ∀ list ∈ [d.files, d.includes, d.excludes], ∀ entry ∈ list.getD [],
    Path.IsLocal (.ofText entry)

theorem proper_configName : ∀ name ∈ [configName], (Component.name name).Proper := by
  decide

theorem isLocal_defaultIncludes : ∀ entry ∈ defaultIncludes, Path.IsLocal (.ofText entry) := by
  decide

theorem isLocal_defaultExcludes : ∀ entry ∈ defaultExcludes, Path.IsLocal (.ofText entry) := by
  decide

namespace FileTree

variable {t t' content : FileTree} {place place' : Place} {d : Declaration} {file : Path}

/-! ## Members -/

/-- A file other than a configuration, along names below the directory. -/
structure IsSource (content : FileTree) (names : List RawText) : Prop where
  proper : ∀ name ∈ names, (Component.name name).Proper
  is_file : content.isFile (pathTo names) = true
  not_config : names.getLast? ≠ some configName

/-- A file that an entry names. -/
structure IsNamed (content : FileTree) (entries : List Text) (names : List RawText) : Prop
    extends IsSource content names where
  named : ∃ entry ∈ entries, names = namesOf (Path.components (.ofText entry))

/-- A file that patterns take in and do not leave out, reached from a base of the former. -/
structure IsMatched (content : FileTree) (includes excludes : LocalSet) (names : List RawText) :
    Prop extends IsSource content names where
  taken_in : includes.accepts true names = true
  not_left_out : excludes.accepts false names = false
  reached : ∃ base ∈ includes.bases, ∃ more, names = base ++ more ∧
    EntersTo (fun inner name => !isNeverWalked name && !excludes.accepts false inner) base more

theorem isConfig_under (hdir : dir.isAbsolute = true) (hne : names ≠ [])
    (hnames : ∀ name ∈ names, (Component.name name).Proper) :
    (dir.under names).isConfig = true ↔ names.getLast? = some configName := by
  obtain ⟨lead, last, rfl⟩ := (List.eq_nil_or_concat names).resolve_left hne
  rw [List.concat_eq_append] at hnames ⊢
  obtain ⟨hlead, hlast⟩ := List.forall_mem_append.mp hnames
  rw [isConfig, dir.under_concat, fileName?_child (components_under hdir hlead).1
    (hlast last (List.mem_singleton_self last)), List.getLast?_concat, decide_eq_true_iff]

section Placed

variable (hlinks : content.LinkFree) (hdir : dir.IsBelowRoot) (h : t.HoldsAt dir place content)
include hlinks hdir h

theorem isFile_under (hnames : ∀ name ∈ names, (Component.name name).Proper) :
    t.isFile (dir.under names) = content.isFile (pathTo names) := by
  rw [isFile, isFile, lookup_under hlinks hdir.normal.isTidy h hnames]

theorem isSource_iff (hnames : ∀ name ∈ names, (Component.name name).Proper) :
    (t.isFile (dir.under names) && !(dir.under names).isConfig) = true ↔
      content.IsSource names := by
  rw [isFile_under hlinks hdir h hnames, Bool.and_eq_true, Bool.not_eq_true', Bool.eq_false_iff]
  constructor
  · rintro ⟨hfile, hconfig⟩
    exact ⟨hnames, hfile, mt (isConfig_under hdir.normal.1 (ne_nil_of_isFile_pathTo hfile)
      hnames).mpr hconfig⟩
  · rintro ⟨-, hfile, hconfig⟩
    exact ⟨hfile, mt (isConfig_under hdir.normal.1 (ne_nil_of_isFile_pathTo hfile)
      hnames).mp hconfig⟩

theorem namedFiles_areBelow (hentries : ∀ entry ∈ entries, Path.IsLocal (.ofText entry)) :
    AreBelow dir (content.IsNamed entries) (t.namedFiles ⟨dir, entries⟩) where
  ne_nil _ hnames := ne_nil_of_isFile_pathTo hnames.is_file
  proper _ hnames := hnames.proper
  mem_iff file := by
    have hnames : ∀ entry ∈ entries, dir.absolutize (.ofText entry) =
        dir.under (namesOf (Path.components (.ofText entry))) := fun entry hentry =>
      have hlocal := hentries entry hentry
      absolutize_eq_under hdir.normal hlocal.1 hlocal.components_eq.2
    have hproper : ∀ entry ∈ entries, ∀ name ∈ namesOf (Path.components (.ofText entry)),
        (Component.name name).Proper := fun entry hentry =>
      proper_of_mem_namesOf (hentries entry hentry).components_eq.1
    rw [namedFiles, List.mem_filter, List.mem_map]
    constructor
    · rintro ⟨⟨entry, hentry, rfl⟩, hsource⟩
      rw [hnames entry hentry, isSource_iff hlinks hdir h (hproper entry hentry)] at hsource
      exact ⟨_, ⟨hsource, entry, hentry, rfl⟩, hnames entry hentry⟩
    · rintro ⟨_, ⟨hsource, entry, hentry, rfl⟩, rfl⟩
      exact ⟨⟨entry, hentry, hnames entry hentry⟩,
        (isSource_iff hlinks hdir h (hproper entry hentry)).mpr hsource⟩

/-- A walk for members is told by the names below the directory. -/
theorem mem_filesBelow_members_iff (hcontent : content.NamesProper) {base : List RawText}
    (hbase : ∀ name ∈ base, (Component.name name).Proper) (excludes : LocalSet) {file : Path} :
    file ∈ t.filesBelow (entersForMembers (excludes.placed dir)) (dir.under base) ↔
      ∃ more : List RawText, (∀ name ∈ more, (Component.name name).Proper) ∧
        file = dir.under (base ++ more) ∧ content.isFile (pathTo (base ++ more)) = true ∧
          EntersTo (fun inner name => !isNeverWalked name && !excludes.accepts false inner) base
            more := by
  rw [mem_filesBelow_under_iff hlinks hcontent hdir.normal.isTidy h hbase]
  refine exists_congr fun more => and_congr_right fun hmore => and_congr_right fun _ =>
    and_congr_right fun _ => EntersTo.congr (fun inner hinner => funext fun name => ?_) hbase hmore
  rw [entersForMembers, PatternSet.leavesOut, excludes.accepts_placed hdir false hinner]

omit hlinks h in
theorem isMember_under_iff (includes excludes : LocalSet) (hne : names ≠ [])
    (hnames : ∀ name ∈ names, (Component.name name).Proper) :
    isMember (includes.placed dir) (excludes.placed dir) (dir.under names) = true ↔
      names.getLast? ≠ some configName ∧ includes.accepts true names = true ∧
        excludes.accepts false names = false := by
  rw [isMember, PatternSet.takesIn, PatternSet.leavesOut, includes.accepts_placed hdir true hnames,
    excludes.accepts_placed hdir false hnames, Bool.and_eq_true, Bool.and_eq_true,
    Bool.not_eq_true', Bool.not_eq_true', Bool.eq_false_iff, ne_eq,
    isConfig_under hdir.normal.1 hne hnames, and_assoc]

theorem matchedFiles_areBelow (hcontent : content.NamesProper) {includes : LocalSet}
    (hbases : ∀ names ∈ includes.bases, ∀ name ∈ names, (Component.name name).Proper)
    (excludes : LocalSet) :
    AreBelow dir (content.IsMatched includes excludes)
      (t.matchedFiles (includes.placed dir) (excludes.placed dir)) where
  ne_nil _ hnames := ne_nil_of_isFile_pathTo hnames.is_file
  proper _ hnames := hnames.proper
  mem_iff file := by
    simp only [matchedFiles, List.mem_flatMap, List.mem_filter, List.mem_map,
      LocalSet.mem_bases_placed hdir hbases]
    constructor
    · rintro ⟨_, ⟨base, hbase, rfl⟩, ⟨found, hfound, rfl⟩, hmember⟩
      obtain ⟨more, hmore, rfl, hfile, henters⟩ :=
        (mem_filesBelow_members_iff hlinks hdir h hcontent (hbases base hbase) excludes).mp hfound
      have hproper := List.forall_mem_append.mpr ⟨hbases base hbase, hmore⟩
      rw [(hdir.normal.under hproper).2] at hmember ⊢
      obtain ⟨hconfig, htaken, hleft⟩ := (isMember_under_iff hdir includes excludes
        (ne_nil_of_isFile_pathTo hfile) hproper).mp hmember
      exact ⟨base ++ more,
        ⟨⟨hproper, hfile, hconfig⟩, htaken, hleft, base, hbase, more, rfl, henters⟩, rfl⟩
    · rintro ⟨_, ⟨⟨hproper, hfile, hconfig⟩, htaken, hleft, base, hbase, more, rfl, henters⟩, rfl⟩
      refine ⟨_, ⟨base, hbase, rfl⟩, ⟨dir.under (base ++ more), ?_,
        (hdir.normal.under hproper).2⟩, ?_⟩
      · exact (mem_filesBelow_members_iff hlinks hdir h hcontent (hbases base hbase) excludes).mpr
          ⟨more, (List.forall_mem_append.mp hproper).2, rfl, hfile, henters⟩
      · exact (isMember_under_iff hdir includes excludes (ne_nil_of_isFile_pathTo hfile)
          hproper).mpr ⟨hconfig, htaken, hleft⟩

end Placed

/-- The configuration of a declaration that builds on nothing. -/
def declared (dir : Path) (d : Declaration) : Config :=
  ({ path := dir.child configName } : Config).declare d dir

theorem configDir_child (hdir : dir.IsBelowRoot) : (dir.child configName).configDir = dir := by
  rw [configDir, parent?_child hdir.normal.isTidy (by decide)]
  rfl

theorem memberFiles_of_patterns (hdir : dir.IsBelowRoot) (hfiles : d.files = none)
    (hincludes : d.includes ≠ some []) :
    t.memberFiles (declared dir d) =
      match PatternSet.compile ⟨dir, d.includes.getD defaultIncludes⟩ (dir.child configName) with
      | .error e => .error e
      | .ok includes =>
        match PatternSet.compile ⟨dir, d.excludes.getD defaultExcludes⟩ (dir.child configName) with
        | .error e => .error e
        | .ok excludes => .ok (t.matchedFiles includes excludes) := by
  have hnone : (declared dir d).files = none := by
    rw [declared, Config.declare, hfiles]
    rfl
  have htaken : (declared dir d).includes = d.includes.map (FileList.mk dir) := Option.or_none
  have hleft : (declared dir d).excludes = d.excludes.map (FileList.mk dir) := Option.or_none
  have hpath : (declared dir d).path.configDir = dir := configDir_child hdir
  have hlist : ∀ (list : Option (List Text)) (entries : List Text),
      (list.map (FileList.mk dir)).getD ⟨dir, entries⟩ = ⟨dir, list.getD entries⟩ := by
    rintro (_ | _) _ <;> rfl
  unfold memberFiles
  dsimp only
  rw [hnone, htaken, hleft, hpath, hlist]
  split
  · next heq => cases heq
  · next hempty =>
    obtain ⟨entries, hentries, heq⟩ := Option.map_eq_some_iff.mp hempty
    obtain rfl : entries = [] := congrArg FileList.entries heq
    exact absurd hentries hincludes
  · rw [hlist]
    rfl

/-- The members of a configuration with local entries are told by the names below its directory. -/
theorem exists_memberFiles (hlinks : content.LinkFree) (hcontent : content.NamesProper)
    (hd : d.IsLocal) :
    (∃ e, ∀ (t : FileTree) (dir : Path) (place : Place), dir.IsBelowRoot →
      t.HoldsAt dir place content →
        t.memberFiles (declared dir d) = .error (entryError dir (dir.child configName) e)) ∨
    ∃ way, ∀ (t : FileTree) (dir : Path) (place : Place), dir.IsBelowRoot →
      t.HoldsAt dir place content →
        ∃ files, t.memberFiles (declared dir d) = .ok files ∧ AreBelow dir way files := by
  obtain ⟨-, hlocal⟩ := hd
  have hgetD : ∀ {list : Option (List Text)} {default : List Text},
      list ∈ [d.files, d.includes, d.excludes] → (∀ entry ∈ default, Path.IsLocal (.ofText entry)) →
        ∀ entry ∈ list.getD default, Path.IsLocal (.ofText entry) := by
    intro list default hlist hdefault
    cases list with
    | none => exact hdefault
    | some entries => exact hlocal _ hlist
  cases hfiles : d.files with
  | some entries =>
    refine .inr ⟨content.IsNamed entries, fun t dir place hdir h =>
      ⟨t.namedFiles ⟨dir, entries⟩, ?_, ?_⟩⟩
    · rw [declared, memberFiles, Config.declare, hfiles]
      rfl
    · exact namedFiles_areBelow hlinks hdir h (hlocal (some entries) (by simp [hfiles]))
  | none =>
    by_cases hempty : d.includes = some []
    · refine .inr ⟨fun _ => False, fun t dir place hdir h =>
        ⟨[], ?_, fun _ => False.elim, fun _ => False.elim, by simp⟩⟩
      rw [declared, memberFiles, Config.declare, hfiles, hempty]
      rfl
    · have hincludes : d.includes ∈ [d.files, d.includes, d.excludes] := by simp
      have hexcludes : d.excludes ∈ [d.files, d.includes, d.excludes] := by simp
      obtain ⟨r, hbases, hr⟩ := exists_compile (hgetD hincludes isLocal_defaultIncludes)
      obtain ⟨r', -, hr'⟩ := exists_compile (hgetD hexcludes isLocal_defaultExcludes)
      cases r with
      | error e =>
        refine .inl ⟨e, fun t dir place hdir h => ?_⟩
        rw [memberFiles_of_patterns hdir hfiles hempty, hr dir _ hdir]
        rfl
      | ok includes =>
        cases r' with
        | error e =>
          refine .inl ⟨e, fun t dir place hdir h => ?_⟩
          rw [memberFiles_of_patterns hdir hfiles hempty, hr dir _ hdir, hr' dir _ hdir]
          rfl
        | ok excludes =>
          refine .inr ⟨content.IsMatched includes excludes, fun t dir place hdir h => ⟨_, ?_,
            matchedFiles_areBelow hlinks hdir h hcontent (hbases includes rfl) excludes⟩⟩
          rw [memberFiles_of_patterns hdir hfiles hempty, hr dir _ hdir, hr' dir _ hdir]
          rfl

/-! ## The project -/

/-- What a file declares is told by its text; an error names its path besides. -/
theorem exists_readDeclaration (text : Except AccessError Text) :
    (∃ d, ∀ (t : FileTree) path, t.readText path = text → t.readDeclaration path = .ok d) ∨
      ∃ e : Path → ConfigError,
        (∀ path dir dir' : Path, (e path).moved dir dir' = e (path.moved dir dir')) ∧
          ∀ (t : FileTree) path, t.readText path = text →
            t.readDeclaration path = .error (e path) := by
  cases text with
  | error cause =>
    refine .inr ⟨(.unreadable · cause), fun _ _ _ => rfl, fun t path h => ?_⟩
    rw [readDeclaration, h]
  | ok text =>
    cases hread : Declaration.read (Jsonc.strip text) with
    | ok d =>
      refine .inl ⟨d, fun t path h => ?_⟩
      rw [readDeclaration, h]
      simp only [hread]
    | error fault =>
      refine .inr ⟨(.malformed · (fault.line (Jsonc.strip text)) fault.cause), fun _ _ _ => rfl,
        fun t path h => ?_⟩
      rw [readDeclaration, h]
      simp only [hread]

theorem readDeclaration_of_readText {path' : Path} (h : t.readText path = content.readText path')
    (hread : content.readDeclaration path' = .ok d) : t.readDeclaration path = .ok d := by
  obtain ⟨_, hd⟩ | ⟨e, -, he⟩ := exists_readDeclaration (content.readText path')
  · rw [hd t path h, ← hd content path' rfl, hread]
  · rw [he content path' rfl] at hread
    cases hread

theorem readText_config (hlinks : content.LinkFree) (hdir : dir.IsBelowRoot)
    (h : t.HoldsAt dir place content) :
    t.readText (dir.child configName) = content.readText (pathTo [configName]) := by
  have hlookup := lookup_under hlinks hdir.normal.isTidy h proper_configName
  unfold readText readBytes
  rw [← hlookup]
  rfl

theorem load_declared (hdir : dir.IsBelowRoot)
    (hread : t.readDeclaration (dir.child configName) = .ok d) (hbases : d.bases = []) :
    Config.load t (dir.child configName) = .ok (declared dir d) := by
  rw [load_of_no_bases hread hbases, configDir_child hdir, declared]

theorem resolveProject_of_members {c : Config} {files : List Path}
    (hload : Config.load t path = .ok c) (hmembers : t.memberFiles c = .ok files) :
    t.resolveProject path =
      .ok (if files = [] then none else some (.ofFiles path files c.noEmit)) := by
  rw [resolveProject, hload]
  cases files <;> simp [hmembers]

theorem ofFiles_moved (hdir : dir.IsBelowRoot) (hdir' : dir'.IsBelowRoot)
    {way : List RawText → Prop} {files files' : List Path} (hfiles : AreBelow dir way files)
    (hfiles' : AreBelow dir' way files') (noEmit : Bool) :
    Project.ofFiles (dir'.child configName) files' noEmit =
      (Project.ofFiles (dir.child configName) files noEmit).moved dir dir' := by
  have hpath : (dir.child configName).moved dir dir' = dir'.child configName :=
    moved_under hdir hdir' proper_configName
  have hself : dir.moved dir dir' = dir' := moved_under hdir hdir' (List.forall_mem_nil _)
  have hparent : ∀ {dir : Path}, dir.IsBelowRoot → (dir.child configName).parent? = some dir :=
    fun hdir => parent?_child hdir.normal.isTidy (by decide)
  rw [Project.ofFiles, Project.ofFiles, hparent hdir, hparent hdir', Project.moved, hpath,
    sortedDistinct_moved hdir hdir' hfiles hfiles']
  simp only [Option.getD_some, hself]

/-- A project whose entries stay below its directory is the same in every directory that holds the
same content without links. Its members lie below the directory. An error is the same too, with the
new directory at the start of its path, and of the pattern that the place of a fault is counted
in. -/
theorem resolveProject_moved (hlinks : content.LinkFree) (hcontent : content.NamesProper)
    (hconfig : ∀ d, content.readDeclaration (pathTo [configName]) = .ok d → d.IsLocal)
    (hdir : dir.IsBelowRoot) (h : t.HoldsAt dir place content)
    (hdir' : dir'.IsBelowRoot) (h' : t'.HoldsAt dir' place' content) :
    t'.resolveProject (dir'.child configName) =
        ((t.resolveProject (dir.child configName)).map
          (Option.map (·.moved dir dir'))).mapError (·.moved dir dir') ∧
      ∀ p, t.resolveProject (dir.child configName) = .ok (some p) →
        p.dir = dir ∧ ∀ file ∈ p.files, dir.IsAbove file := by
  have hpath : (dir.child configName).moved dir dir' = dir'.child configName :=
    moved_under hdir hdir' proper_configName
  have hread := readText_config hlinks hdir h
  have hread' := readText_config hlinks hdir' h'
  obtain ⟨d, hd⟩ | ⟨e, hmoved, he⟩ :=
    exists_readDeclaration (content.readText (pathTo [configName]))
  · have hlocal := hconfig d (hd content _ rfl)
    have hload := load_declared hdir (hd t _ hread) hlocal.no_bases
    have hload' := load_declared hdir' (hd t' _ hread') hlocal.no_bases
    obtain ⟨e, he⟩ | ⟨way, hway⟩ := exists_memberFiles hlinks hcontent hlocal
    · rw [resolveProject, resolveProject, hload, hload']
      simp only [he t dir place hdir h, he t' dir' place' hdir' h', Except.map, Except.mapError,
        entryError_moved, hpath]
      exact ⟨trivial, fun p hp => by cases hp⟩
    · obtain ⟨files, hmembers, hfiles⟩ := hway t dir place hdir h
      obtain ⟨files', hmembers', hfiles'⟩ := hway t' dir' place' hdir' h'
      have hresolve := resolveProject_of_members hload hmembers
      have hresolve' := resolveProject_of_members hload' hmembers'
      have hnil : files' = [] ↔ files = [] := hfiles'.eq_nil_iff.trans hfiles.eq_nil_iff.symm
      have hnoEmit : (declared dir' d).noEmit = (declared dir d).noEmit := rfl
      rw [hresolve, hresolve', hnoEmit, ofFiles_moved hdir hdir' hfiles hfiles']
      by_cases hempty : files = []
      · rw [if_pos (hnil.mpr hempty), if_pos hempty]
        exact ⟨rfl, fun p hp => by cases hp⟩
      · rw [if_neg (mt hnil.mp hempty), if_neg hempty]
        refine ⟨rfl, ?_⟩
        rintro p ⟨⟩
        refine ⟨?_, fun file hfile => ?_⟩
        · rw [Project.ofFiles, parent?_child hdir.normal.isTidy (by decide)]
          rfl
        · obtain ⟨names, hnames, rfl⟩ :=
            (hfiles.mem_iff file).mp (Order.mem_of_mem_sortDistinct hfile)
          exact ⟨names, hfiles.ne_nil names hnames, hfiles.proper names hnames, rfl⟩
  · have hload : ∀ {t : FileTree} {path : Path},
        t.readText path = content.readText (pathTo [configName]) →
          t.resolveProject path = .error (e path) := fun hread => by
      rw [resolveProject, Config.load, loadChain_of_unreadable not_onChain_nil (he _ _ hread)]
      rfl
    rw [hload hread, hload hread', Except.map, Except.mapError, hmoved, hpath]
    exact ⟨rfl, fun p hp => by cases hp⟩

/-- A directory with two entries that are patterns, and a hidden file that neither takes in. -/
def twoPatterns : FileTree :=
  let config := "\x7b\"include\": [\"*\", \"src/*\"]\x7d"
  ⟨[([.ofString "tsconfig.json"], .file (Text.toUtf8 config.toList) false),
    ([.ofString "a.ts"], .file [] false), ([.ofString "src", .ofString "c.ts"], .file [] false),
    ([.ofString "src", .ofString ".d.ts"], .file [] false), ([.ofString "src"], .dir)]⟩

/-- The project of this directory, if it stands at `dir`. -/
def twoPatternsAt (dir : Path) : Project where
  path := dir.child configName
  dir := dir
  files := [dir.entry "a.ts", (dir.entry "src").entry "c.ts"]
  noEmit := false

/-- The members at `/w/[a]*` and at `/.h/]?`. -/
theorem resolveProject_moved_twoPatterns :
    (twoPatterns.placedAt [.ofString "w", .ofString "[a]*"]).resolveProject
        (.ofString "/w/[a]*/tsconfig.json") = .ok (some (twoPatternsAt (.ofString "/w/[a]*"))) ∧
      (twoPatterns.placedAt [.ofString ".h", .ofString "]?"]).resolveProject
        (.ofString "/.h/]?/tsconfig.json") = .ok (some (twoPatternsAt (.ofString "/.h/]?"))) := by
  obtain ⟨d, hread, hparts⟩ : ∃ d, twoPatterns.readDeclaration (pathTo [configName]) = .ok d ∧
      (d.bases, d.files, d.includes, d.excludes.isNone && d.options.isNone) =
        ([], none, some ["*".toList, "src/*".toList], true) :=
    exists_read_of_part (by decide +kernel)
  obtain ⟨hbases, hfiles, hincludes, hexcludes, hoptions⟩ : d.bases = [] ∧ d.files = none ∧
      d.includes = some ["*".toList, "src/*".toList] ∧ d.excludes = none ∧ d.options = none := by
    simpa using hparts
  have hlocal : d.IsLocal := by
    refine ⟨hbases, ?_⟩
    rw [hfiles, hincludes, hexcludes]
    decide
  have hlinks : twoPatterns.LinkFree := by
    simp [LinkFree, twoPatterns]
  have hnames : twoPatterns.NamesProper := by
    unfold NamesProper Component.Proper
    decide +kernel
  have hdir : (Path.ofString "/w/[a]*").IsBelowRoot := by decide +kernel
  have hpath : pathTo [.ofString "w", .ofString "[a]*"] = .ofString "/w/[a]*" := by decide
  have hpath' : pathTo [.ofString ".h", .ofString "]?"] = .ofString "/.h/]?" := by decide
  have h : (twoPatterns.placedAt [.ofString "w", .ofString "[a]*"]).HoldsAt (.ofString "/w/[a]*")
      [.ofString "w", .ofString "[a]*"] twoPatterns :=
    hpath ▸ holdsAt_placedAt twoPatterns (by decide)
  have h' : (twoPatterns.placedAt [.ofString ".h", .ofString "]?"]).HoldsAt (.ofString "/.h/]?")
      [.ofString ".h", .ofString "]?"] twoPatterns :=
    hpath' ▸ holdsAt_placedAt twoPatterns (by decide)
  have hfirst : (twoPatterns.placedAt [.ofString "w", .ofString "[a]*"]).resolveProject
      ((Path.ofString "/w/[a]*").child configName) =
        .ok (some (twoPatternsAt (.ofString "/w/[a]*"))) := by
    have hload := load_declared hdir
      (readDeclaration_of_readText (readText_config hlinks hdir h) hread) hbases
    have hmembers : (twoPatterns.placedAt [.ofString "w", .ofString "[a]*"]).memberFiles
        (declared (.ofString "/w/[a]*") d) = .ok [.ofString "/w/[a]*/a.ts",
          .ofString "/w/[a]*/src/c.ts", .ofString "/w/[a]*/src/c.ts"] := by
      rw [memberFiles_of_patterns hdir hfiles (by rw [hincludes]; decide), hincludes, hexcludes]
      decide +kernel
    have hnoEmit : (declared (.ofString "/w/[a]*") d).noEmit = false := by
      rw [Config.noEmit, declared, Config.declare, hoptions]
      rfl
    rw [resolveProject_of_members hload hmembers, hnoEmit]
    decide +kernel
  have hmoved := (resolveProject_moved hlinks hnames (fun other hother => by
    obtain rfl := Except.ok.inj (hread.symm.trans hother)
    exact hlocal) hdir h (by decide +kernel) h').1
  rw [hfirst] at hmoved
  exact ⟨hfirst, hmoved.trans (by decide +kernel)⟩

end FileTree

end Typesweep
