import Typesweep.Proofs.Config.Literal
import Typesweep.Proofs.FileTree.Removal
import Typesweep.Proofs.Glob.Hidden

/-!
# Directories as entries

An entry without wildcards that names a directory stands for everything below it: `src` and
`src/**/*` select the same files. Their patterns are not the same. One entry has the pattern of the
directory itself, which matches no file, and the other one asks twice for any components, which is
no more than once.

That the entry names no file is not enough. Patterns match what is shown of a path, so there must be
no file either that is shown like what the entry names
(`FileTree.projectFiles_spelledOut_undecodable`).

* `entryAccepts_iff_of_literal`, `entryAccepts_iff_of_anyBelow`: what the two entries match.
* `FileTree.SpellsOut.alike`: they match the same files and are walked from the same directory.
* `FileTree.projectFiles_spelledOut`: the main result.
-/

namespace Typesweep

open Text Typesweep.Path

variable {base dir dir' path q file : Path} {entry entry' t : Text} {p : Glob.Pattern}
  {includes includes' excludes excludes' : List Text} {spelled : Bool}

/-! ## Patterns -/

/-- Some pattern of the entry matches the path. -/
def EntryAccepts (base : Path) (entry : Text) (spelled : Bool) (q : Path) : Prop :=
  ∃ pattern, IsEntryPattern base entry pattern ∧ pattern.accepts spelled q.text = true

/-- The text goes on from that of a directory with a slash. Where hidden names must be spelled out,
no component after it is hidden. -/
def LiesBelow (spelled : Bool) (dir t : Text) : Prop :=
  ∃ more, t = dir ++ '/' :: more ∧ (spelled = true → Glob.Unhidden true more)

/-- What `/**/*` matches behind a directory. -/
theorem accepts_anyBelow_iff (hp : Glob.parse ('/' :: joinWith ['/'] anyBelow) = .ok p)
    {dir : Text} : (p.behind dir).accepts spelled t = true ↔ LiesBelow spelled dir t := by
  rw [Glob.accepts_behind_iff hp]
  obtain rfl : p = ⟨[.char '/', .anyComponents, .anySequence]⟩ := (Except.ok.inj hp).symm
  refine exists_congr fun more => and_congr_right fun _ => ?_
  constructor
  · rintro haccepts rfl
    refine Glob.unhidden_slash.mp (Glob.unhidden_of_matchFrom (of_decide_eq_true haccepts) ?_)
    simp [Glob.LeavesHidden]
  · intro hmore
    exact decide_eq_true (Glob.matchFrom_components_sequence hmore)

/-- `/**/*/**/*` matches no more than `/**/*`. -/
theorem liesBelow_of_accepts_twice
    (hp : Glob.parse ('/' :: joinWith ['/'] (anyBelow ++ anyBelow)) = .ok p) {dir : Text}
    (h : (p.behind dir).accepts spelled t = true) : LiesBelow spelled dir t := by
  obtain ⟨more, rfl, haccepts⟩ := (Glob.accepts_behind_iff hp).mp h
  obtain rfl : p = ⟨[.char '/', .anyComponents, .anySequence, .char '/', .anyComponents,
    .anySequence]⟩ := (Except.ok.inj hp).symm
  refine ⟨more, rfl, ?_⟩
  rintro rfl
  refine Glob.unhidden_slash.mp (Glob.unhidden_of_matchFrom (of_decide_eq_true haccepts) ?_)
  simp [Glob.LeavesHidden]

/-- An entry without wildcards matches what is shown like what it names, and what lies below
that. -/
theorem entryAccepts_iff_of_literal (h : wildNames entry = []) :
    EntryAccepts base entry spelled q ↔
      q.text = (literalOf base entry).text ∨
        LiesBelow spelled (stem (literalOf base entry)) q.text := by
  have hparse : Glob.parse ('/' :: joinWith ['/'] anyBelow) = .ok _ := rfl
  simp only [EntryAccepts, isEntryPattern_iff_of_literal h, or_and_right, exists_or, exists_eq_left]
  refine or_congr ?_ ?_
  · exact Glob.accepts_behind_nil_iff
  · constructor
    · rintro ⟨-, ⟨p, hp, rfl⟩, haccepts⟩
      exact (accepts_anyBelow_iff hp).mp haccepts
    · intro hbelow
      exact ⟨_, ⟨_, hparse, rfl⟩, (accepts_anyBelow_iff hparse).mpr hbelow⟩

/-- An entry with `**/*` behind its literal directory matches what lies below this directory. -/
theorem entryAccepts_iff_of_anyBelow (h : wildNames entry = anyBelow) :
    EntryAccepts base entry spelled q ↔
      LiesBelow spelled (stem (literalOf base entry)) q.text := by
  have hwild : wildNames entry ≠ [] := h ▸ List.cons_ne_nil _ _
  have hparse : Glob.parse ('/' :: joinWith ['/'] anyBelow) = .ok _ := rfl
  rw [EntryAccepts]
  simp only [isEntryPattern_iff_of_wild hwild, h]
  constructor
  · rintro ⟨-, ⟨names, rfl | rfl, p, hp, rfl⟩, haccepts⟩
    · exact (accepts_anyBelow_iff hp).mp haccepts
    · exact liesBelow_of_accepts_twice hp haccepts
  · intro hbelow
    exact ⟨_, ⟨_, .inl rfl, _, hparse, rfl⟩, (accepts_anyBelow_iff hparse).mpr hbelow⟩

theorem entryCompiles_of_anyBelow (h : wildNames entry = anyBelow) : EntryCompiles base entry := by
  have hwild : wildNames entry ≠ [] := h ▸ List.cons_ne_nil _ _
  simp only [EntryCompiles, patternTexts_of_wild hwild, h,
    Glob.parse_escape_append_eq_ok_iff _ (.slash _)]
  exact ⟨⟨_, _, rfl, rfl⟩, _, _, rfl, rfl⟩

/-! ## Entries -/

theorem literalOf_append_anyBelow (base : Path) (hne : entry ≠ []) (h : isWild entry = false) :
    literalOf base (entry ++ "/**/*".toList) = literalOf base entry := by
  have hall := forall_mem_components_of_isWild h
  rw [literalOf, literalOf, splitEntry, splitEntry, components_append_anyBelow hne,
    List.takeWhile_append_of_pos hall, List.takeWhile_eq_self_iff.mpr hall]
  exact congrArg (fun cs => base.absolutize (ofComponents cs)) (List.append_nil _)

theorem wildNames_append_anyBelow (hne : entry ≠ []) (h : isWild entry = false) :
    wildNames (entry ++ "/**/*".toList) = anyBelow := by
  rw [wildNames, components_append_anyBelow hne,
    List.dropWhile_append_of_pos (forall_mem_components_of_isWild h)]
  rfl

namespace FileTree

variable {t : FileTree}

/-- Two entries that a walk starts from in the same directory, and that match the same files. -/
structure Alike (t : FileTree) (base : Path) (entry entry' : Text) : Prop where
  literal_eq : literalOf base entry = literalOf base entry'
  accepts_iff : ∀ spelled file, t.isFile file = true →
    (EntryAccepts base entry spelled file ↔ EntryAccepts base entry' spelled file)

theorem Alike.refl (t : FileTree) (base : Path) (entry : Text) : t.Alike base entry entry where
  literal_eq := rfl
  accepts_iff _ _ _ := Iff.rfl

theorem Alike.symm (h : t.Alike base entry entry') : t.Alike base entry' entry where
  literal_eq := h.literal_eq.symm
  accepts_iff spelled file hfile := (h.accepts_iff spelled file hfile).symm

/-- The second entry is the first one, which has no wildcards and names nothing that a file is shown
as, with everything below it spelled out. -/
structure SpellsOut (t : FileTree) (base : Path) (entry entry' : Text) : Prop where
  eq_append : entry' = entry ++ "/**/*".toList
  ne_nil : entry ≠ []
  not_wild : isWild entry = false
  not_file : ∀ file, t.isFile file = true → file.text ≠ (base.absolutize (.ofText entry)).text

theorem SpellsOut.alike (h : t.SpellsOut base entry entry') : t.Alike base entry entry' := by
  obtain ⟨rfl, hne, hwild, hfile⟩ := h
  have hliteral := literalOf_append_anyBelow base hne hwild
  refine ⟨hliteral.symm, fun spelled file hisFile => ?_⟩
  rw [entryAccepts_iff_of_literal (wildNames_eq_nil hwild),
    entryAccepts_iff_of_anyBelow (wildNames_append_anyBelow hne hwild), hliteral]
  refine or_iff_right fun hsame => hfile file hisFile ?_
  rw [hsame, literalOf_eq_absolutize base hwild]

/-- A path of ASCII characters is the only one that is shown as it is, so it is enough that this is
no file. -/
theorem SpellsOut.of_short (hne : entry ≠ []) (hwild : isWild entry = false)
    (hshort : AreShort (base.absolutize (.ofText entry)).text)
    (hfile : t.isFile (base.absolutize (.ofText entry)) = false) :
    t.SpellsOut base entry (entry ++ "/**/*".toList) := by
  refine ⟨rfl, hne, hwild, fun file hisFile hsame => ?_⟩
  have hraw := (ofBytes_eq_iff hshort).mp hsame
  rw [← (ofBytes_eq_iff hshort).mp rfl] at hraw
  have hself : file = base.absolutize (.ofText entry) := congrArg Path.mk hraw
  rw [hself, hfile] at hisFile
  cases hisFile

theorem SpellsOut.compiles (h : t.SpellsOut base entry entry') : EntryCompiles base entry' := by
  obtain ⟨rfl, hne, hwild, -⟩ := h
  exact entryCompiles_of_anyBelow (wildNames_append_anyBelow hne hwild)

/-! ## Members -/

/-- Some entries of a list are spelled out, and the other ones are as they were. -/
def SpellsOutSome (t : FileTree) (base : Path) (entries entries' : List Text) : Prop :=
  List.Forall₂ (fun entry entry' => entry' = entry ∨ t.SpellsOut base entry entry') entries entries'

theorem SpellsOutSome.alike (h : t.SpellsOutSome base includes includes') :
    List.Forall₂ (t.Alike base) includes includes' :=
  h.imp fun entry _ hentry => hentry.elim (fun heq => heq ▸ .refl t base entry) (·.alike)

theorem SpellsOutSome.alike_symm (h : t.SpellsOutSome base includes includes') :
    List.Forall₂ (t.Alike base) includes' includes :=
  List.Forall₂.flip (h.alike.imp fun _ _ halike => halike.symm)

theorem SpellsOutSome.compiles (h : t.SpellsOutSome base includes includes')
    (hcompiles : PatternSet.Compiles ⟨base, includes⟩ path) :
    PatternSet.Compiles ⟨base, includes'⟩ path := by
  rw [PatternSet.compiles_iff] at hcompiles ⊢
  induction h with
  | nil => exact hcompiles
  | cons hentry _ ih =>
    obtain ⟨hfirst, hrest⟩ := List.forall_mem_cons.mp hcompiles
    refine List.forall_mem_cons.mpr ⟨?_, ih hrest⟩
    rcases hentry with rfl | hentry
    · exact hfirst
    · exact hentry.compiles

theorem exists_mem_of_forall₂ {α β : Type} {R : α → β → Prop} {as : List α} {bs : List β}
    (h : List.Forall₂ R as bs) : ∀ a ∈ as, ∃ b ∈ bs, R a b := by
  induction h with
  | nil => exact List.forall_mem_nil _
  | cons hab _ ih =>
    refine List.forall_mem_cons.mpr ⟨⟨_, List.mem_cons_self, hab⟩, fun a ha => ?_⟩
    obtain ⟨b, hb, hR⟩ := ih a ha
    exact ⟨b, List.mem_cons_of_mem _ hb, hR⟩

/-- Lists of entries that are alike select the same files. -/
theorem IsSelected.of_alike (hfile : t.isFile file = true)
    (hincludes : List.Forall₂ (t.Alike dir) includes includes')
    (hexcludes : List.Forall₂ (t.Alike dir') excludes' excludes)
    (h : t.IsSelected ⟨dir, includes⟩ ⟨dir', excludes⟩ file) :
    t.IsSelected ⟨dir, includes'⟩ ⟨dir', excludes'⟩ file where
  reached := by
    obtain ⟨entry, hentry, hreached⟩ := h.reached
    obtain ⟨entry', hentry', halike⟩ := exists_mem_of_forall₂ hincludes entry hentry
    have hliteral : (splitEntry dir entry).1 = (splitEntry dir entry').1 := halike.literal_eq
    exact ⟨entry', hentry', hliteral ▸ hreached⟩
  not_config := h.not_config
  taken_in := by
    obtain ⟨entry, hentry, htaken⟩ := h.taken_in
    obtain ⟨entry', hentry', halike⟩ := exists_mem_of_forall₂ hincludes entry hentry
    exact ⟨entry', hentry', (halike.accepts_iff true file hfile).mp htaken⟩
  not_left_out entry' hentry' pattern hpattern := by
    obtain ⟨entry, hentry, halike⟩ := exists_mem_of_forall₂ hexcludes entry' hentry'
    by_contra haccepts
    obtain ⟨pattern', hpattern', haccepts'⟩ := (halike.accepts_iff false file hfile).mp
      ⟨pattern, hpattern, Bool.not_eq_false _ ▸ haccepts⟩
    exact Bool.false_ne_true ((h.not_left_out entry hentry pattern' hpattern').symm.trans haccepts')

/-- What two lists select is a file. -/
theorem IsSelected.isFile (hnames : t.NamesProper) {list list' : FileList}
    (h : t.IsSelected list list' file) : t.isFile file = true := by
  obtain ⟨entry, -, found, hfound, rfl⟩ := h.reached
  have hnormal : (splitEntry list.base entry).1.IsNormal :=
    isNormal_absolutize (isAbsolute_of_mem_filesBelow hfound)
  have hfoundNormal : found.IsNormal := isNormal_of_mem_filesBelow hnames hnormal hfound
  obtain ⟨place, content, executable, hfind, hentry⟩ := exists_find_of_mem_filesBelow hfound
  rw [hfoundNormal.2]
  exact isFile_iff.mpr ⟨place, content, executable, hfind, hentry⟩

/-- An entry without wildcards that names nothing that a file is shown as selects the same with
`/**/*` behind it, in the list that is taken in as in the one that is left out. -/
theorem projectFiles_spelledOut (hnames : t.NamesProper) (c : Config)
    (hincludes : PatternSet.Compiles ⟨dir, includes⟩ c.path)
    (hexcludes : PatternSet.Compiles ⟨dir', excludes⟩ c.path)
    (htaken : t.SpellsOutSome dir includes includes')
    (hleft : t.SpellsOutSome dir' excludes excludes') :
    ∃ files, t.projectFiles (c.withLists ⟨dir, includes⟩ ⟨dir', excludes⟩) = .ok files ∧
      t.projectFiles (c.withLists ⟨dir, includes'⟩ ⟨dir', excludes'⟩) = .ok files := by
  obtain ⟨files, hfiles, hsorted, hmem⟩ := exists_projectFiles hnames c hincludes hexcludes
  obtain ⟨files', hfiles', hsorted', hmem'⟩ := exists_projectFiles hnames c
    (htaken.compiles hincludes) (hleft.compiles hexcludes)
  have heq : files' = files := by
    refine Order.eq_of_mem_iff hsorted' hsorted fun file => ?_
    rw [hmem, hmem']
    exact ⟨fun h => h.of_alike (h.isFile hnames) htaken.alike_symm hleft.alike,
      fun h => h.of_alike (h.isFile hnames) htaken.alike hleft.alike_symm⟩
  exact ⟨files, hfiles, heq ▸ hfiles'⟩

/-- One entry of each list, with a needless `.` and a final slash in one of them. -/
theorem projectFiles_spelledOut_overlappingBases :
    overlappingBases.projectFiles
          (listsInR ["./src/".toList, "src/sub".toList] ["src/gen".toList]) =
        .ok [.ofString "/r/src/sub/b.ts"] ∧
      overlappingBases.projectFiles
          (listsInR ["./src//**/*".toList, "src/sub".toList] ["src/gen/**/*".toList]) =
        .ok [.ofString "/r/src/sub/b.ts"] := by
  have hnames : overlappingBases.NamesProper := by
    unfold NamesProper Component.Proper
    decide +kernel
  have hfound : overlappingBases.projectFiles
      (listsInR ["./src/".toList, "src/sub".toList] ["src/gen".toList]) =
        .ok [.ofString "/r/src/sub/b.ts"] := by decide +kernel
  have htaken : PatternSet.Compiles ⟨.ofString "/r", ["./src/".toList, "src/sub".toList]⟩
      (.ofString "/r/tsconfig.json") := ⟨_, rfl⟩
  have hleft : PatternSet.Compiles ⟨.ofString "/r", ["src/gen".toList]⟩
      (.ofString "/r/tsconfig.json") := ⟨_, rfl⟩
  have hsource : overlappingBases.SpellsOutSome (.ofString "/r")
      ["./src/".toList, "src/sub".toList] ["./src//**/*".toList, "src/sub".toList] :=
    .cons (.inr (.of_short (by decide) rfl (by decide +kernel) (by decide +kernel)))
      (.cons (.inl rfl) .nil)
  have hgenerated : overlappingBases.SpellsOutSome (.ofString "/r")
      ["src/gen".toList] ["src/gen/**/*".toList] :=
    .cons (.inr (.of_short (by decide) rfl (by decide +kernel) (by decide +kernel))) .nil
  obtain ⟨files, hfiles, hfiles'⟩ := projectFiles_spelledOut hnames
    { path := .ofString "/r/tsconfig.json" } htaken hleft hsource hgenerated
  obtain rfl := Except.ok.inj (hfound.symm.trans hfiles)
  exact ⟨hfound, hfiles'⟩

/-- A file beside a directory that its own directory is shown like. -/
def fileBeside : FileTree :=
  ⟨[([.ofString "r", [0xff], .ofString "x"], .file [] false),
    ([.ofString "r", [0xff]], .dir), ([.ofString "r", .ofString "\ufffd"], .dir),
    ([.ofString "r"], .dir)]⟩

/-- The entry `x` of the one directory names no file, and takes in the file of the other one. With
`/**/*` behind it the entry does not. -/
theorem projectFiles_spelledOut_undecodable :
    let dir : Path := .ofString "/r/\ufffd"
    let c : Config := { path := dir.child configName }
    fileBeside.isFile (dir.absolutize (.ofString "x")) = false ∧
      fileBeside.projectFiles
          (c.withLists ⟨dir, ["x".toList, "../**/*.zz".toList]⟩ ⟨dir, []⟩) =
        .ok [⟨RawText.ofString "/r/" ++ [0xff] ++ RawText.ofString "/x"⟩] ∧
      fileBeside.projectFiles
          (c.withLists ⟨dir, ["x/**/*".toList, "../**/*.zz".toList]⟩ ⟨dir, []⟩) = .ok [] := by
  decide +kernel

end FileTree

end Typesweep
