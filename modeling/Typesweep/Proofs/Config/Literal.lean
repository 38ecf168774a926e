import Typesweep.Proofs.Config.Selection
import Typesweep.Proofs.Glob.Anchored
import Typesweep.Proofs.Path.Above
import Typesweep.Proofs.Path.Folding
import Typesweep.Proofs.Path.Shown

/-!
# The literal directory of an entry

The components of an entry before its first wildcard name a directory, or a file, and both patterns
of the entry begin with its text. So whatever they match lies there: it is the literal directory, or
it goes on from there with a slash. Only the slash of the root is not written twice, so the root is
nothing in front of a pattern (`stem`). The literal directories are the bases of a pattern set, so a
walk of these comes by everything that the set can match.

Patterns are texts and are matched with the texts that paths are shown as. Two directories whose
names are not UTF-8 may be shown alike, and then the patterns of the one match below the other as
well (`PatternSet.accepts_outside_of_undecodable`).

* `isEntryPattern_iff_of_literal`, `isEntryPattern_iff_of_wild`: the patterns of an entry, behind
  its literal directory.
* `components_of_stem`: the components of what goes on from a literal directory.
* `PatternSet.exists_base_encloses`: the bases of a set and what it matches.
-/

namespace Typesweep

open Text Typesweep.Path Component
open RawText (slash)

variable {base q : Path} {entry t : Text} {pattern : Glob.Pattern} {names : List Text}
  {spelled : Bool}

/-! ## Texts -/

/-- The text of a directory as it stands in front of a slash. -/
def stem (dir : Path) : Text :=
  trimEnd (fun c => c = '/') dir.text

/-- The directory that the components of an entry name before the first wildcard. -/
def literalOf (base : Path) (entry : Text) : Path :=
  (splitEntry base entry).1

/-- The components of an entry from the first wildcard on. -/
def wildNames (entry : Text) : List Text :=
  ((Path.components (.ofText entry)).dropWhile fun c => !isWild c.text).map Component.text

/-- What is put behind an entry to reach everything below it. -/
def anyBelow : List Text :=
  ["**".toList, "*".toList]

theorem splitEntry_wild (base : Path) (entry : Text) :
    (splitEntry base entry).2 = joinWith ['/'] (wildNames entry) :=
  rfl

theorem slash_notMem_of_mem_wildNames {name : Text} (h : name ∈ wildNames entry) : '/' ∉ name := by
  obtain ⟨c, hc, rfl⟩ := List.mem_map.mp h
  exact mt slash_mem_ofBytes_iff.mp (proper_of_mem_wild hc).2

theorem joinWith_wildNames_ne_nil (h : wildNames entry ≠ []) :
    joinWith ['/'] (wildNames entry) ≠ [] := by
  obtain ⟨name, names, hnames⟩ := List.exists_cons_of_ne_nil h
  obtain ⟨c, hc, hname⟩ := List.mem_map.mp (hnames ▸ List.mem_cons_self : name ∈ wildNames entry)
  have hne : name ≠ [] := hname ▸ mt ofBytes_eq_nil_iff.mp (proper_of_mem_wild hc).raw_ne_nil
  rw [hnames]
  cases names with
  | nil => exact hne
  | cons second rest =>
    rw [joinWith_cons_cons]
    simp [hne]

/-- A normalized path ends with a slash only if it is the root. -/
theorem text_normalize_cases (p : Path) :
    (p.normalize.text = ['/'] ∧ stem p.normalize = []) ∨
      (p.normalize.text.getLast? ≠ some '/' ∧ stem p.normalize = p.normalize.text) := by
  by_cases hslash : p.normalize.text.getLast? = some '/'
  · have hroot := getLast?_text_normalize hslash
    refine .inl ⟨hroot, ?_⟩
    rw [stem, hroot]
    rfl
  · refine .inr ⟨hslash, trimEnd_of_getLast? fun c hc => decide_eq_false fun heq => ?_⟩
    exact hslash (heq ▸ hc)

theorem literalOf_eq_normalize (base : Path) (entry : Text) :
    ∃ p : Path, literalOf base entry = p.normalize :=
  Path.exists_absolutize_eq base _

theorem trimEnd_escape_literalOf (base : Path) (entry : Text) :
    trimEnd (fun c => c = '/') (Glob.escape (literalOf base entry).text) =
      Glob.escape (stem (literalOf base entry)) := by
  obtain ⟨p, hp⟩ := literalOf_eq_normalize base entry
  rw [hp]
  rcases text_normalize_cases p with ⟨hroot, hstem⟩ | ⟨hslash, hstem⟩
  · rw [hstem, hroot]
    rfl
  · rw [hstem]
    exact trimEnd_of_getLast? fun c hc =>
      decide_eq_false fun heq => hslash (getLast?_escape _ (heq ▸ hc))

/-! ## Patterns -/

theorem patternTexts_of_literal (h : wildNames entry = []) :
    patternTexts base entry = (Glob.escape (literalOf base entry).text ++ [],
      Glob.escape (stem (literalOf base entry)) ++ '/' :: joinWith ['/'] anyBelow) := by
  have hwild : (splitEntry base entry).2 = [] := by rw [splitEntry_wild, h]; rfl
  rw [patternTexts, entryPatterns, hwild, List.append_nil, ← trimEnd_escape_literalOf]
  rfl

theorem patternTexts_of_wild (h : wildNames entry ≠ []) :
    patternTexts base entry =
      (Glob.escape (stem (literalOf base entry)) ++ '/' :: joinWith ['/'] (wildNames entry),
        Glob.escape (stem (literalOf base entry)) ++
          '/' :: joinWith ['/'] (wildNames entry ++ anyBelow)) := by
  have hne := joinWith_wildNames_ne_nil h
  have hlast := getLast?_splitEntry_wild base entry
  rw [splitEntry_wild] at hlast
  have hfirst : (patternTexts base entry).1 =
      Glob.escape (stem (literalOf base entry)) ++ '/' :: joinWith ['/'] (wildNames entry) := by
    rw [patternTexts, entryPatterns, splitEntry_wild, ← trimEnd_escape_literalOf]
    exact if_neg hne
  have hjoin : joinWith ['/'] (wildNames entry ++ anyBelow) =
      joinWith ['/'] (wildNames entry) ++ '/' :: joinWith ['/'] anyBelow :=
    joinWith_append h (List.cons_ne_nil _ _)
  have htrim : trimEnd (fun c => c = '/') (patternTexts base entry).1 =
      (patternTexts base entry).1 := by
    refine trimEnd_of_getLast? fun c hc => decide_eq_false ?_
    rintro rfl
    rw [hfirst, List.getLast?_append_of_ne_nil _ (List.cons_ne_nil _ _),
      List.getLast?_cons_of_ne_nil hne] at hc
    exact hlast hc
  have hsecond : (patternTexts base entry).2 =
      trimEnd (fun c => c = '/') (patternTexts base entry).1 ++ "/**/*".toList := rfl
  rw [htrim, hfirst, List.append_assoc] at hsecond
  rw [hjoin]
  exact Prod.ext hfirst hsecond

/-- The patterns of an entry without wildcards. -/
theorem isEntryPattern_iff_of_literal (h : wildNames entry = []) :
    IsEntryPattern base entry pattern ↔
      pattern = Glob.Pattern.behind (literalOf base entry).text ⟨[]⟩ ∨
        ∃ p, Glob.parse ('/' :: joinWith ['/'] anyBelow) = .ok p ∧
          pattern = p.behind (stem (literalOf base entry)) := by
  rw [IsEntryPattern, patternTexts_of_literal h, Glob.parse_escape_append_eq_ok_iff _ .nil,
    Glob.parse_escape_append_eq_ok_iff _ (.slash _)]
  refine or_congr ?_ Iff.rfl
  constructor
  · rintro ⟨p, hp, rfl⟩
    obtain rfl := Except.ok.inj hp
    rfl
  · rintro rfl
    exact ⟨⟨[]⟩, rfl, rfl⟩

/-- The patterns of an entry with wildcards. -/
theorem isEntryPattern_iff_of_wild (h : wildNames entry ≠ []) :
    IsEntryPattern base entry pattern ↔
      ∃ names, (names = wildNames entry ∨ names = wildNames entry ++ anyBelow) ∧
        ∃ p, Glob.parse ('/' :: joinWith ['/'] names) = .ok p ∧
          pattern = p.behind (stem (literalOf base entry)) := by
  rw [IsEntryPattern, patternTexts_of_wild h, Glob.parse_escape_append_eq_ok_iff _ (.slash _),
    Glob.parse_escape_append_eq_ok_iff _ (.slash _)]
  simp only [or_and_right, exists_or, exists_eq_left]

/-- A pattern of an entry stands behind the literal directory: it is nothing more than this, or
begins with a slash there. -/
theorem exists_behind_of_isEntryPattern (h : IsEntryPattern base entry pattern) :
    pattern = Glob.Pattern.behind (literalOf base entry).text ⟨[]⟩ ∨
      ∃ names ⊆ wildNames entry ++ anyBelow, ∃ p,
        Glob.parse ('/' :: joinWith ['/'] names) = .ok p ∧
          pattern = p.behind (stem (literalOf base entry)) := by
  by_cases hwild : wildNames entry = []
  · rcases (isEntryPattern_iff_of_literal hwild).mp h with heq | hbelow
    · exact .inl heq
    · exact .inr ⟨anyBelow, List.subset_append_right _ _, hbelow⟩
  · obtain ⟨names, hnames, hbelow⟩ := (isEntryPattern_iff_of_wild hwild).mp h
    refine .inr ⟨names, ?_, hbelow⟩
    rcases hnames with rfl | rfl
    · exact List.subset_append_left _ _
    · exact List.Subset.refl _

/-! ## Components -/

theorem forall_mem_components_of_isWild (h : isWild entry = false) :
    ∀ c ∈ Path.components (.ofText entry), (!isWild c.text) = true := by
  intro c hc
  rw [Bool.not_eq_true']
  rcases eq_root_or_mem_segments hc with rfl | hsegment
  · rfl
  · have hsub : c.text ⊆ entry := by
      rw [segments_ofText, List.mem_map] at hsegment
      obtain ⟨segment, hsegment, hraw⟩ := hsegment
      rw [Component.text, ← hraw, ofBytes_toUtf8]
      exact subset_of_mem_splitOn hsegment
    rw [isWild, List.any_eq_false] at h ⊢
    exact fun d hd => h d (hsub hd)

theorem wildNames_eq_nil (h : isWild entry = false) : wildNames entry = [] := by
  rw [wildNames, List.dropWhile_eq_nil_iff.mpr (forall_mem_components_of_isWild h)]
  rfl

/-- The literal directory of an entry without wildcards is what the entry names. -/
theorem literalOf_eq_absolutize (base : Path) (h : isWild entry = false) :
    literalOf base entry = base.absolutize (.ofText entry) := by
  rw [literalOf, splitEntry, List.takeWhile_eq_self_iff.mpr (forall_mem_components_of_isWild h)]
  exact absolutize_congr base (components_ofComponents_components (.ofText entry))

theorem components_append_anyBelow (hne : entry ≠ []) :
    Path.components (.ofText (entry ++ "/**/*".toList)) =
      Path.components (.ofText entry) ++ anyBelow.map fun name => .name (toUtf8 name) := by
  have hraw : (Path.ofText entry).raw ≠ [] := by
    rwa [Ne, ← text_eq_nil_iff, text_ofText]
  have hlonger : Path.ofText (entry ++ "/**/*".toList) =
      ⟨(Path.ofText entry).raw ++ slash :: toUtf8 "**/*".toList⟩ :=
    congrArg Path.mk (toUtf8_append entry "/**/*".toList)
  rw [hlonger, components_append_slash hraw]
  rfl

/-- What goes on from the text of a literal directory has the components that this directory is
shown with, and then those that come after the slash. Only where the directory is the empty path
does the slash mean the root. -/
theorem components_of_stem (base : Path) (entry t : Text) :
    ∃ rest, Path.components (.ofText (stem (literalOf base entry) ++ '/' :: t)) =
      (literalOf base entry).shown.components ++ rest ∧
        ∀ c ∈ rest, c = .root ∨ c ∈ below (toUtf8 t) := by
  obtain ⟨p, hp⟩ := literalOf_eq_normalize base entry
  rw [hp, Path.shown]
  rcases text_normalize_cases p with ⟨hroot, hstem⟩ | ⟨-, hstem⟩
  · refine ⟨below (toUtf8 t), ?_, fun c => .inr⟩
    rw [hstem, List.nil_append, ofText, toUtf8_cons_slash, components_slash, hroot]
    rfl
  · rw [hstem, ofText, toUtf8_append, toUtf8_cons_slash]
    by_cases hne : p.normalize.text = []
    · refine ⟨.root :: below (toUtf8 t), ?_, fun c => List.mem_cons.mp⟩
      rw [hne, toUtf8_nil, List.nil_append, components_slash]
      rfl
    · have hraw : (Path.ofText p.normalize.text).raw ≠ [] := by
        rwa [Ne, ← text_eq_nil_iff, text_ofText]
      exact ⟨below (toUtf8 t), components_append_slash hraw _, fun c => .inr⟩

/-! ## Bases -/

/-- Whatever a pattern of an entry matches is shown as the literal directory or as something below
it. -/
theorem literalOf_encloses (hpattern : IsEntryPattern base entry pattern)
    (h : pattern.accepts spelled q.text = true) :
    (literalOf base entry).shown.Encloses q.shown := by
  rcases exists_behind_of_isEntryPattern hpattern with rfl | ⟨names, -, p, hparse, rfl⟩
  · have hself : q.shown = (literalOf base entry).shown :=
      shown_eq_shown_iff.mpr (Glob.accepts_behind_nil_iff.mp h)
    exact hself ▸ Encloses.refl q.shown
  · obtain ⟨t, htext, -⟩ := (Glob.accepts_behind_iff hparse).mp h
    obtain ⟨rest, hcomponents, -⟩ := components_of_stem base entry t
    exact ⟨rest, by rw [← hcomponents, Path.shown, htext]⟩

namespace PatternSet

variable {s : PatternSet} {list : FileList} {path : Path}

/-- Whatever a pattern set matches, with hidden names spelled out or not, is shown as one of its
bases or as something below one. It is this base or lies below it where both are UTF-8. -/
theorem exists_base_encloses (hcompile : compile list path = .ok s)
    (h : s.accepts spelled q = true) :
    ∃ dir ∈ s.bases, dir.shown.Encloses q.shown ∧
      (AreUtf8 dir.components → AreUtf8 (q.components.take dir.components.length) →
        dir.Encloses q) := by
  obtain ⟨entry, hentry, pattern, hpattern, haccepts⟩ :=
    (isOf_of_compile hcompile).exists_mem_patterns_iff.mp (List.any_eq_true.mp h)
  obtain ⟨dir, hdir, hsame⟩ := exists_base_same hcompile hentry
  have hsame' : dir.shown.Same (literalOf list.base entry).shown := by
    rw [Same, components_shown, components_shown]
    exact congrArg (List.map Component.shown) hsame.symm
  have hshown : dir.shown.Encloses q.shown :=
    hsame'.encloses.trans (literalOf_encloses hpattern haccepts)
  refine ⟨dir, hdir, hshown, fun hdirUtf8 hqUtf8 => ?_⟩
  obtain ⟨rest, hrest⟩ := hshown
  rw [components_shown, components_shown] at hrest
  obtain ⟨more, hmore, -⟩ := exists_append_of_shown hrest.symm hdirUtf8 hqUtf8
  exact ⟨more, hmore.symm⟩

/-- One entry goes up before its wildcards, the other is a directory. Without hidden names spelled
out, the first matches a file in a hidden directory below its base. A directory whose name only
begins like the other one is not matched. -/
theorem exists_base_encloses_upAndSrc :
    ∃ s, compile ⟨.ofString "/r/app", ["../lib/**/*.ts".toList, "src".toList]⟩
          (.ofString "/r/app/tsconfig.json") = .ok s ∧
        s.bases = [.ofString "/r/app/src", .ofString "/r/lib"] ∧
        s.leavesOut (.ofString "/r/lib/.gen/a.ts") = true ∧
        s.leavesOut (.ofString "/r/app/src2/a.ts") = false ∧
        ∃ dir ∈ s.bases, dir.Encloses (.ofString "/r/lib/.gen/a.ts") := by
  obtain ⟨s, hcompile, hbases, hleft, hkept⟩ : ∃ s,
      compile ⟨.ofString "/r/app", ["../lib/**/*.ts".toList, "src".toList]⟩
          (.ofString "/r/app/tsconfig.json") = .ok s ∧
        s.bases = [.ofString "/r/app/src", .ofString "/r/lib"] ∧
        s.leavesOut (.ofString "/r/lib/.gen/a.ts") = true ∧
        s.leavesOut (.ofString "/r/app/src2/a.ts") = false :=
    ⟨_, rfl, by decide +kernel, by decide +kernel, by decide +kernel⟩
  obtain ⟨dir, hdir, -, hencloses⟩ := exists_base_encloses hcompile hleft
  have hutf8 : ∀ base ∈ s.bases, AreUtf8 base.components := by
    rw [hbases]
    decide +kernel
  have hfile : AreUtf8 (Path.ofString "/r/lib/.gen/a.ts").components := by decide +kernel
  exact ⟨s, hcompile, hbases, hleft, hkept, dir, hdir, hencloses (hutf8 dir hdir)
    fun c hc => hfile c (List.mem_of_mem_take hc)⟩

/-- Two directories whose names are not UTF-8 are shown alike, so an entry of the one also matches
what lies in the other. -/
theorem accepts_outside_of_undecodable :
    let base : Path := ⟨RawText.ofString "/r/" ++ [0xff]⟩
    let q : Path := ⟨RawText.ofString "/r/" ++ [0xfe] ++ RawText.ofString "/a.ts"⟩
    base.IsNormal ∧ q.IsNormal ∧
      ∃ s, compile ⟨base, ["**/*".toList]⟩ (base.child configName) = .ok s ∧
        s.takesIn q = true ∧ s.leavesOut q = true ∧ ∀ dir ∈ s.bases, ¬dir.Encloses q := by
  refine ⟨by decide +kernel, by decide +kernel, _, rfl, ?_⟩
  decide +kernel

end PatternSet

end Typesweep
