import Typesweep.Proofs.Config.Literal
import Typesweep.Proofs.Glob.Hidden

/-!
# Hidden files

A component with a dot at its start is hidden. An entry takes in hidden components only where it
spells them out: in its literal directory, or by a dot that stands at the start of a component, or
after stars there. All other entries take in only what lies at or below their literal directory
along components of which none is hidden.

Below a directory that is only shown like the literal one the same patterns match, and there a name
that is spelled out in the literal directory is a hidden one
(`FileTree.hidden_taken_in_undecodable`).

* `isUnhiddenBelow_of_accepts`: what the patterns of such an entry match.
* `FileTree.hidden_left_out`: the main result, for patterns and for projects.
-/

namespace Typesweep

open Text Typesweep.Path Component

variable {base dir path q file : Path} {entry t : Text} {pattern : Glob.Pattern} {names : List Text}
  {rest : List Component}

/-- A component with a dot at its start. -/
def Component.IsHidden (c : Component) : Prop :=
  c.text.head? = some '.'

theorem Component.isHidden_shown {c : Component} : c.shown.IsHidden ↔ c.IsHidden := by
  rw [IsHidden, text_shown, IsHidden]

instance : DecidablePred Component.IsHidden := fun c =>
  inferInstanceAs (Decidable (c.text.head? = some '.'))

/-- An entry that spells out no hidden component behind its literal directory. -/
def SpellsNoHidden (entry : Text) : Prop :=
  ∀ name ∈ wildNames entry, ¬ Glob.SpellsHidden name

instance : DecidablePred SpellsNoHidden := fun entry =>
  inferInstanceAs (Decidable (∀ name ∈ wildNames entry, ¬ Glob.SpellsHidden name))

/-- A path that is `dir` or lies below it along components that are not hidden. -/
def IsUnhiddenBelow (dir q : Path) : Prop :=
  ∃ rest, q.components = dir.components ++ rest ∧ ∀ c ∈ rest, ¬ c.IsHidden

instance : DecidableRel IsUnhiddenBelow := fun dir q =>
  decidable_of_iff (dir.components <+: q.components ∧
      ∀ c ∈ q.components.drop dir.components.length, ¬ c.IsHidden) <| by
    constructor
    · rintro ⟨⟨rest, hrest⟩, hnone⟩
      rw [← hrest, List.drop_left] at hnone
      exact ⟨rest, hrest.symm, hnone⟩
    · rintro ⟨rest, hrest, hnone⟩
      rw [hrest, List.drop_left]
      exact ⟨List.prefix_append _ _, hnone⟩

/-- Where both are UTF-8, a path is below a directory just as the one is shown to be below the
other. -/
theorem IsUnhiddenBelow.of_shown (h : IsUnhiddenBelow dir.shown q.shown)
    (hdir : AreUtf8 dir.components) (hq : AreUtf8 (q.components.take dir.components.length)) :
    IsUnhiddenBelow dir q := by
  obtain ⟨rest, hrest, hnone⟩ := h
  rw [components_shown, components_shown] at hrest
  obtain ⟨more, hmore, rfl⟩ := exists_append_of_shown hrest hdir hq
  exact ⟨more, hmore, fun c hc hhidden =>
    hnone c.shown (List.mem_map_of_mem hc) (isHidden_shown.mpr hhidden)⟩

/-! ## Patterns -/

theorem not_isHidden_of_mem_below (ht : Glob.Unhidden true t) {c : Component}
    (hc : c ∈ below (toUtf8 t)) : ¬ c.IsHidden := by
  obtain ⟨segment, hsegment, hof⟩ := List.mem_filterMap.mp hc
  rw [splitOn_toUtf8, List.mem_map] at hsegment
  obtain ⟨piece, hpiece, rfl⟩ := hsegment
  rw [IsHidden, Component.text, raw_of_ofSegment? hof, ofBytes_toUtf8]
  exact ht.forall_head?_ne piece hpiece

/-- A pattern that spells out no hidden component lies behind a directory. -/
theorem isUnhiddenBelow_of_accepts_behind {p : Glob.Pattern}
    (hslash : ∀ name ∈ names, '/' ∉ name) (hnames : ∀ name ∈ names, ¬ Glob.SpellsHidden name)
    (hparse : Glob.parse ('/' :: joinWith ['/'] names) = .ok p)
    (h : (p.behind (stem (literalOf base entry))).accepts true q.text = true) :
    IsUnhiddenBelow (literalOf base entry).shown q.shown := by
  obtain ⟨t, htext, haccepts⟩ := (Glob.accepts_behind_iff hparse).mp h
  have hdots : Glob.LeavesDots true ('/' :: joinWith ['/'] names) :=
    Glob.leavesDots_slash.mpr (Glob.leavesDots_joinWith hslash hnames)
  have hunhidden : Glob.Unhidden true ('/' :: t) :=
    Glob.unhidden_of_matchFrom (of_decide_eq_true haccepts)
      (Glob.leavesHidden_of_parse hparse hdots)
  rw [Glob.unhidden_slash] at hunhidden
  obtain ⟨rest, hcomponents, hrest⟩ := components_of_stem base entry t
  refine ⟨rest, ?_, fun c hc => ?_⟩
  · rw [← hcomponents, Path.shown, htext]
  · rcases hrest c hc with rfl | hc
    · decide
    · exact not_isHidden_of_mem_below hunhidden hc

/-- What an entry matches that spells out no hidden component. -/
theorem isUnhiddenBelow_of_accepts (hentry : SpellsNoHidden entry)
    (hpattern : IsEntryPattern base entry pattern) (h : pattern.accepts true q.text = true) :
    IsUnhiddenBelow (literalOf base entry).shown q.shown := by
  have hbelow : (∀ name ∈ anyBelow, '/' ∉ name) ∧ ∀ name ∈ anyBelow, ¬ Glob.SpellsHidden name := by
    decide
  rcases exists_behind_of_isEntryPattern hpattern with rfl | ⟨names, hnames, p, hp, rfl⟩
  · have hself : q.shown = (literalOf base entry).shown :=
      shown_eq_shown_iff.mpr (Glob.accepts_behind_nil_iff.mp h)
    exact ⟨[], by rw [hself, List.append_nil], List.forall_mem_nil _⟩
  · have hslash : ∀ name ∈ wildNames entry ++ anyBelow, '/' ∉ name :=
      List.forall_mem_append.mpr ⟨fun _ => slash_notMem_of_mem_wildNames, hbelow.1⟩
    have hplain : ∀ name ∈ wildNames entry ++ anyBelow, ¬ Glob.SpellsHidden name :=
      List.forall_mem_append.mpr ⟨hentry, hbelow.2⟩
    exact isUnhiddenBelow_of_accepts_behind (fun name hname => hslash name (hnames hname))
      (fun name hname => hplain name (hnames hname)) hp h

theorem accepts_eq_false_of_isHidden (hentry : SpellsNoHidden entry)
    (hpattern : IsEntryPattern base entry pattern)
    (hq : q.components = (literalOf base entry).components ++ rest)
    (hhidden : ∃ c ∈ rest, c.IsHidden) : pattern.accepts true q.text = false := by
  by_contra haccepts
  obtain ⟨rest', hrest, hnone⟩ :=
    isUnhiddenBelow_of_accepts hentry hpattern (Bool.not_eq_false _ ▸ haccepts)
  rw [components_shown, components_shown, hq, List.map_append] at hrest
  obtain rfl := List.append_cancel_left hrest
  obtain ⟨c, hc, hdot⟩ := hhidden
  exact hnone c.shown (List.mem_map_of_mem hc) (isHidden_shown.mpr hdot)

/-! ## Projects -/

namespace FileTree

variable {tree : FileTree} {c : Config} {files : List Path}

/-- A member of a configuration with patterns is matched by a pattern of an entry that it takes
in. -/
theorem exists_pattern_of_mem_memberFiles (hfiles : c.files = none)
    (h : tree.memberFiles c = .ok files) (hmem : file ∈ files) :
    ∃ entry ∈ c.takenIn.entries, ∃ pattern, IsEntryPattern c.takenIn.base entry pattern ∧
      pattern.accepts true file.text = true := by
  rcases memberFiles_cases h with ⟨list, hlist, -⟩ | ⟨-, rfl | ⟨includes, _, hincludes, -, rfl⟩⟩
  · rw [hfiles] at hlist
    cases hlist
  · exact absurd hmem List.not_mem_nil
  · obtain ⟨dir, -, hfile⟩ := List.mem_flatMap.mp hmem
    obtain ⟨-, htaken, -⟩ := isMember_iff.mp (List.mem_filter.mp hfile).2
    exact (PatternSet.isOf_of_compile hincludes).exists_mem_patterns_iff.mp htaken

/-- A path with a hidden component below the literal directory of an entry is not matched by its
patterns, unless the entry spells out hidden components there. So if no entry does that, the members
of a project are shown at or below the literal directories along components that are not hidden, and
where both are UTF-8 they lie there. -/
theorem hidden_left_out (tree : FileTree) :
    (∀ (base : Path) (entry : Text), SpellsNoHidden entry →
      ∀ pattern, IsEntryPattern base entry pattern →
        ∀ (q : Path) (rest : List Component),
          q.components = (literalOf base entry).components ++ rest → (∃ c ∈ rest, c.IsHidden) →
            pattern.accepts true q.text = false) ∧
    ∀ (path : Path) (c : Config) (p : Project),
      Config.load tree path = .ok c → c.files = none →
        (∀ entry ∈ c.takenIn.entries, SpellsNoHidden entry) →
          tree.resolveProject path = .ok (some p) →
            ∀ file ∈ p.files, ∃ entry ∈ c.takenIn.entries,
              IsUnhiddenBelow (literalOf c.takenIn.base entry).shown file.shown ∧
                (AreUtf8 (literalOf c.takenIn.base entry).components →
                  AreUtf8 (file.components.take
                    (literalOf c.takenIn.base entry).components.length) →
                  IsUnhiddenBelow (literalOf c.takenIn.base entry) file) := by
  refine ⟨fun base entry hentry pattern hpattern q rest =>
    accepts_eq_false_of_isHidden hentry hpattern, ?_⟩
  intro path c p hload hfiles hentries hresolve file hfile
  obtain ⟨c', files, hload', hmembers, -, rfl⟩ := resolveProject_eq_some_iff.mp hresolve
  obtain rfl := Except.ok.inj (hload.symm.trans hload')
  obtain ⟨entry, hentry, pattern, hpattern, haccepts⟩ :=
    exists_pattern_of_mem_memberFiles hfiles hmembers (Order.mem_of_mem_sortDistinct hfile)
  have hshown := isUnhiddenBelow_of_accepts (hentries entry hentry) hpattern haccepts
  exact ⟨entry, hentry, hshown, hshown.of_shown⟩

/-- A configuration that takes in one hidden directory by its name, and hidden files in it and in
another directory. -/
def hiddenInside : FileTree :=
  let config := "\x7b\"include\": [\".cfg/*\", \"src\"]\x7d"
  ⟨[([.ofString "r", .ofString "tsconfig.json"], .file (Text.toUtf8 config.toList) false),
    ([.ofString "r", .ofString ".cfg", .ofString "a.ts"], .file [] false),
    ([.ofString "r", .ofString ".cfg", .ofString ".b.ts"], .file [] false),
    ([.ofString "r", .ofString "src", .ofString ".gen", .ofString "c.ts"], .file [] false),
    ([.ofString "r", .ofString "src", .ofString ".gen"], .dir),
    ([.ofString "r", .ofString "src"], .dir),
    ([.ofString "r", .ofString ".cfg"], .dir), ([.ofString "r"], .dir)]⟩

theorem hidden_left_out_hiddenInside :
    ∃ p, hiddenInside.resolveProject (.ofString "/r/tsconfig.json") = .ok (some p) ∧
      p.files = [.ofString "/r/.cfg/a.ts"] ∧
      (∀ file ∈ p.files, ∃ entry ∈ [".cfg/*".toList, "src".toList],
        IsUnhiddenBelow (literalOf (.ofString "/r") entry) file) ∧
      ∃ pattern, IsEntryPattern (.ofString "/r") ".cfg/*".toList pattern ∧
        pattern.accepts true "/r/.cfg/.b.ts".toList = false := by
  obtain ⟨c, hload, hpath, hfiles, hincludes, hexcludes⟩ :=
    exists_load_of_lists hiddenInside (.ofString "/r/tsconfig.json")
      (some [".cfg/*".toList, "src".toList]) none (by decide +kernel)
  have hmembers : hiddenInside.memberFiles c = .ok [.ofString "/r/.cfg/a.ts"] := by
    unfold memberFiles
    dsimp only
    rw [hpath, hfiles, hincludes, hexcludes]
    decide +kernel
  have hresolve := resolveProject_eq_some_iff.mpr
    ⟨_, _, hload, hmembers, List.cons_ne_nil _ _, rfl⟩
  have htaken : c.takenIn = ⟨.ofString "/r", [".cfg/*".toList, "src".toList]⟩ := by
    rw [Config.takenIn, hincludes]
    rfl
  have hplain : ∀ entry ∈ [".cfg/*".toList, "src".toList], SpellsNoHidden entry := by decide
  obtain ⟨hpatterns, hprojects⟩ := hidden_left_out hiddenInside
  have hreached := hprojects _ _ _ hload hfiles (by rw [htaken]; exact hplain) hresolve
  rw [htaken] at hreached
  refine ⟨_, hresolve, rfl, fun file hfile => ?_, _, .inl rfl, ?_⟩
  · obtain ⟨entry, hentry, -, hbelow⟩ := hreached file hfile
    have hliteral : ∀ entry ∈ [".cfg/*".toList, "src".toList],
        AreUtf8 (literalOf (.ofString "/r") entry).components := by decide +kernel
    have hfiles : ∀ file ∈ [Path.ofString "/r/.cfg/a.ts"], AreUtf8 file.components := by
      decide +kernel
    exact ⟨entry, hentry, hbelow (hliteral entry hentry)
      fun c hc => hfiles file hfile c (List.mem_of_mem_take hc)⟩
  · exact hpatterns (.ofString "/r") ".cfg/*".toList (hplain _ List.mem_cons_self) _ (.inl rfl)
      (.ofString "/r/.cfg/.b.ts") [.name (.ofString ".b.ts")] (by decide +kernel)
      ⟨_, List.mem_cons_self, by decide +kernel⟩

/-- A directory whose name is not UTF-8 beside the one that it is shown like, in which the hidden
directory `.hid` is taken in. -/
def hiddenBeside : FileTree :=
  let config := "\x7b\"include\": [\"../**/*\", \".hid\"]\x7d"
  ⟨[([.ofString "r", .ofString "\ufffd", configName], .file (Text.toUtf8 config.toList) false),
    ([.ofString "r", [0xff], .ofString ".hid", .ofString "x"], .file [] false),
    ([.ofString "r", [0xff], .ofString ".hid"], .dir), ([.ofString "r", [0xff]], .dir),
    ([.ofString "r", .ofString "\ufffd"], .dir), ([.ofString "r"], .dir)]⟩

/-- The file in the hidden directory beside the literal one is a member. -/
theorem hidden_taken_in_undecodable :
    ∃ c p, Config.load hiddenBeside (.ofString "/r/\ufffd/tsconfig.json") = .ok c ∧
      c.files = none ∧ (∀ entry ∈ c.takenIn.entries, SpellsNoHidden entry) ∧
      hiddenBeside.resolveProject (.ofString "/r/\ufffd/tsconfig.json") = .ok (some p) ∧
      ∃ file ∈ p.files, ∀ entry ∈ c.takenIn.entries,
        ¬IsUnhiddenBelow (literalOf c.takenIn.base entry) file := by
  obtain ⟨c, hload, hpath, hfiles, hincludes, hexcludes⟩ :=
    exists_load_of_lists hiddenBeside (.ofString "/r/\ufffd/tsconfig.json")
      (some ["../**/*".toList, ".hid".toList]) none (by decide +kernel)
  have hmembers : hiddenBeside.memberFiles c =
      .ok [⟨RawText.ofString "/r/" ++ [0xff] ++ RawText.ofString "/.hid/x"⟩] := by
    unfold memberFiles
    dsimp only
    rw [hpath, hfiles, hincludes, hexcludes]
    decide +kernel
  have hresolve := resolveProject_eq_some_iff.mpr
    ⟨_, _, hload, hmembers, List.cons_ne_nil _ _, rfl⟩
  have htaken : c.takenIn = ⟨.ofString "/r/\ufffd", ["../**/*".toList, ".hid".toList]⟩ := by
    rw [Config.takenIn, hincludes]
    rfl
  refine ⟨c, _, hload, hfiles, ?_, hresolve, _, List.mem_singleton_self _, ?_⟩
  · rw [htaken]
    decide +kernel
  · rw [htaken]
    decide +kernel

end FileTree

end Typesweep
