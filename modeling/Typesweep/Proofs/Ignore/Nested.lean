import Mathlib.Data.Bool.AllAny
import Typesweep.Proofs.FileTree.Removal
import Typesweep.Proofs.Ignore.Agreement
import Typesweep.Proofs.Order
import Typesweep.Proofs.Path.Order

/-!
# How far nested rule files reach

The rules of the file in a directory below the working directory are put into one list with all the
others, with the directory in front. They reach only below the directory if its name, put there, is
read as itself: the runs with the file and without it then agree on every other path, although the
file also decides which rule files further down are read.

The condition is needed. A name such as `work[1]` is read as a pattern and reaches other
directories (`nestedRules_reach_bracketedDir`).

* `nestedFiles_drop`, `upwardFiles_drop`: the rule files that are found without the file.
* `agreeOutside_addFiles`: what the two runs gather from them.
* `nestedRules_reach_below`: the answers of the two runs.
-/

namespace Typesweep.IgnoreResolver

open Typesweep.Path Text
open RawText (slash dot)

variable {t : FileTree} {cwd dir file root : Path} {home : Place}
  {lead : RawText} {rules : RuleSet} {roots : List Path}

/-! ## The nested rule files -/

instance : Std.TransCmp compareDepth := by
  have hlength : Std.TransCmp fun p q : Path => compare p.components.length q.components.length :=
    Order.transCmp_on fun p : Path => p.components.length
  exact inferInstanceAs (Std.TransCmp (compareLex
    (fun p q : Path => compare p.components.length q.components.length) Path.compare))

theorem same_of_compareDepth {p q : Path} (h : compareDepth p q = .eq) : p.Same q := by
  rw [compareDepth, Ordering.then_eq_eq] at h
  exact compare_eq_iff.mp h.2

/-- A path to a rule file, written in the one normal way. -/
def IsRuleFile (file : Path) : Prop :=
  file.IsNormal ∧ file.fileName? = some ignoreFileName

theorem mem_nestedFiles_iff (hnames : t.NamesProper) (hcwd : cwd.isAbsolute = true) :
    file ∈ nestedFiles t cwd rules roots ↔
      file.fileName? = some ignoreFileName ∧ ∃ root ∈ roots,
        file ∈ t.filesBelow (entersForRules rules cwd) (cwd.absolutize root) := by
  have hfound : ∀ p : Path, p ∈ (roots.flatMap fun root =>
      (t.filesBelow (entersForRules rules cwd) (cwd.absolutize root)).filter fun file =>
        file.fileName? = some ignoreFileName) ↔ p.fileName? = some ignoreFileName ∧
          ∃ root ∈ roots, p ∈ t.filesBelow (entersForRules rules cwd) (cwd.absolutize root) := by
    intro p
    simp only [List.mem_flatMap, List.mem_filter, decide_eq_true_eq]
    exact ⟨fun ⟨root, hroot, hmem, hname⟩ => ⟨hname, root, hroot, hmem⟩,
      fun ⟨hname, root, hroot, hmem⟩ => ⟨root, hroot, hmem, hname⟩⟩
  have hnormal : ∀ p : Path, (p.fileName? = some ignoreFileName ∧ ∃ root ∈ roots,
      p ∈ t.filesBelow (entersForRules rules cwd) (cwd.absolutize root)) → p.IsNormal :=
    fun p ⟨_, root, _, hmem⟩ => FileTree.isNormal_of_mem_filesBelow hnames
      (isNormal_absolutize_of_isAbsolute hcwd root) hmem
  unfold nestedFiles
  dsimp only
  rw [List.map_congr_left fun p hp => (hnormal p ((hfound p).mp hp)).2, List.map_id', ← hfound]
  exact Order.mem_sortDistinct_iff fun p hp q hq heq =>
    (hnormal p ((hfound p).mp hp)).eq_of_same (hnormal q ((hfound q).mp hq))
      (same_of_compareDepth heq)

/-- Without a rule file the search misses the paths that lead to it, and no others. -/
theorem nestedFiles_drop {place : Place} {content : List UInt8} {executable : Bool}
    (hfile : t.entry? place = some (.file content executable)) (hnames : t.NamesProper)
    (hcwd : cwd.isAbsolute = true) (rules : RuleSet) (roots : List Path) :
    nestedFiles (t.drop place) cwd rules roots =
      (nestedFiles t cwd rules roots).filter fun file => t.find file ≠ .ok place := by
  have hnames' : (t.drop place).NamesProper := fun e he => hnames e (List.mem_of_mem_filter he)
  have hascends : ∀ u : FileTree, (nestedFiles u cwd rules roots).Pairwise fun p q =>
      compareDepth p q = .lt := fun _ => Order.sortDistinct_pairwise _
  refine Order.eq_of_mem_iff (hascends _) ((hascends t).sublist List.filter_sublist) fun file => ?_
  rw [List.mem_filter, decide_eq_true_iff, mem_nestedFiles_iff hnames' hcwd,
    mem_nestedFiles_iff hnames hcwd]
  have hwalk : ∀ root : Path, file ∈ (t.drop place).filesBelow (entersForRules rules cwd)
      (cwd.absolutize root) ↔ file ∈ t.filesBelow (entersForRules rules cwd)
        (cwd.absolutize root) ∧ t.find file ≠ .ok place := fun root =>
    FileTree.mem_filesBelow_drop_iff hfile hnames
      (isNormal_absolutize_of_isAbsolute hcwd root).isTidy
  simp only [hwalk]
  exact ⟨fun ⟨hname, root, hroot, hmem, hne⟩ => ⟨⟨hname, root, hroot, hmem⟩, hne⟩,
    fun ⟨⟨hname, root, hroot, hmem⟩, hne⟩ => ⟨hname, root, hroot, hmem, hne⟩⟩

theorem isRuleFile_of_mem_nestedFiles (hnames : t.NamesProper) (hcwd : cwd.isAbsolute = true)
    (h : file ∈ nestedFiles t cwd rules roots) : IsRuleFile file := by
  obtain ⟨hname, root, _, hmem⟩ := (mem_nestedFiles_iff hnames hcwd).mp h
  have hstart := isNormal_absolutize_of_isAbsolute hcwd root
  exact ⟨FileTree.isNormal_of_mem_filesBelow hnames hstart hmem, hname⟩

/-! ## The directory of a rule file -/

theorem proper_ignoreFileName : (Component.name ignoreFileName).Proper := by
  refine ⟨by decide, by decide⟩

/-- A rule file is that of a normal directory. -/
theorem IsRuleFile.exists_child (h : IsRuleFile file) :
    ∃ (lead : List Component) (names : List RawText), (lead = [] ∨ lead = [.up]) ∧
      (∀ name ∈ names, (Component.name name).Proper) ∧ file =
        (ofComponents (.root :: (lead ++ names.map Component.name))).child ignoreFileName := by
  obtain ⟨lead, names, hnormal, hlead, hnames⟩ := exists_normalize_eq h.1.1
  rw [h.1.2] at hnormal
  have hlast := h.2
  rw [fileName?, hnormal, (components_ofComponents_lead hlead hnames).2] at hlast
  rcases List.eq_nil_or_concat names with rfl | ⟨names, name, rfl⟩
  · rcases hlead with rfl | rfl <;> cases hlast
  · rw [List.concat_eq_append] at hnormal hlast hnames
    have hname : name = ignoreFileName := by simpa using hlast
    subst hname
    replace hnames := (List.forall_mem_append.mp hnames).1
    have hproper : ∀ c ∈ names.map Component.name, c.Proper := List.forall_mem_map.mpr hnames
    rcases hlead with rfl | rfl
    · refine ⟨[], names, .inl rfl, hnames, ?_⟩
      rw [List.nil_append, child_ofComponents hproper proper_ignoreFileName, hnormal,
        List.map_append]
      rfl
    · have hproper' : ∀ c ∈ [Component.up] ++ names.map Component.name, c.Proper :=
        List.forall_mem_cons.mpr ⟨proper_up, hproper⟩
      refine ⟨[.up], names, .inr rfl, hnames, ?_⟩
      rw [child_ofComponents hproper' proper_ignoreFileName, hnormal, List.map_append]
      rfl

/-- Where the directory of a rule file lies, if it has a path from the working directory: at it or
below it, or above the top of the tree. -/
theorem IsRuleFile.relative_cases (h : IsRuleFile file) (hcwd : cwd.IsNormal) {relative : Path}
    (hrelative : (file.parent?.bind fun dir => dir.relativeTo? cwd) = some relative) :
    (∃ names : List RawText, (∀ name ∈ names, (Component.name name).Proper) ∧
      file = (cwd.under names).child ignoreFileName ∧ relative.raw = joinWith [slash] names) ∨
    ((relative.raw = [dot, dot] ∨ ∃ more, relative.raw = [dot, dot] ++ slash :: more) ∧
      relative.raw.getLast? ≠ some slash) := by
  obtain ⟨lead, names, hlead, hnames, hfile⟩ := h.exists_child
  have hproper : ∀ c ∈ lead ++ names.map Component.name, c.Proper := by
    refine List.forall_mem_append.mpr ⟨?_, List.forall_mem_map.mpr hnames⟩
    rcases hlead with rfl | rfl
    · exact fun _ hc => absurd hc List.not_mem_nil
    · exact List.forall_mem_singleton.mpr proper_up
  obtain ⟨bs, hbs, hbase⟩ := hcwd.isTidy
  have hparent : file.parent? =
      some (ofComponents (.root :: (lead ++ names.map Component.name))) := by
    rw [hfile]
    exact parent?_child ⟨_, hproper, rfl⟩ proper_ignoreFileName
  rw [hparent, Option.bind_some, hbase] at hrelative
  obtain ⟨-, -, hcomponents⟩ := exists_of_relativeTo? (isAbsolute_ofComponents _)
    (isAbsolute_ofComponents _) hrelative
  rw [components_ofComponents hproper, components_ofComponents hbs, List.cons_append] at hcomponents
  generalize hds : below relative.raw = ds at hcomponents
  replace hcomponents := (List.cons.inj hcomponents).2
  have hdsProper : ∀ c ∈ ds, c.Proper := fun c hc =>
    hproper c (hcomponents ▸ List.mem_append_right bs hc)
  rw [hcomponents, relativeTo?_ofComponents hbs hdsProper] at hrelative
  obtain rfl := Option.some.inj hrelative
  by_cases hup : .up ∈ ds
  · -- Only the first component can be a dot pair, so nothing stands before it in the directory.
    have hnot : Component.up ∉ names.map Component.name := by simp
    have hends : ds = .up :: names.map Component.name := by
      rcases hlead with rfl | rfl
      · have hall : names.map Component.name = bs ++ ds := hcomponents
        exact absurd (by rw [hall]; exact List.mem_append_right bs hup) hnot
      · cases bs with
        | nil => exact hcomponents.symm
        | cons b bs =>
          have hall : names.map Component.name = bs ++ ds := (List.cons.inj hcomponents).2
          exact absurd (by rw [hall]; exact List.mem_append_right bs hup) hnot
    rw [hends] at hdsProper ⊢
    refine .inr ⟨?_, ?_⟩
    · cases names with
      | nil => exact .inl rfl
      | cons name names => exact .inr ⟨_, joinWith_cons_cons _ _ _ _⟩
    · exact getLast?_joinWith_raw hdsProper
  · obtain ⟨below, rfl⟩ : ∃ below : List RawText, ds = below.map Component.name :=
      exists_names_of_up_notMem (fun c hc => eq_up_or_name_of_mem_below (hds ▸ hc)) hup
    rw [List.forall_mem_map] at hdsProper
    refine .inl ⟨below, hdsProper, ?_, congrArg (joinWith [slash]) (map_raw_map_name below)⟩
    obtain ⟨habsolute, hunder⟩ := components_under hcwd.1 hdsProper
    refine h.1.eq_of_same ((hcwd.under hdsProper).child proper_ignoreFileName) ?_
    show file.components = _
    rw [hfile, components_child_of_proper (isAbsolute_ofComponents _) proper_ignoreFileName,
      components_child_of_proper habsolute proper_ignoreFileName, hunder,
      components_ofComponents hproper, hcomponents, hbase, components_ofComponents hbs]
    rfl

theorem relativeTo?_parent (hcwd : cwd.IsNormal) {names : List RawText}
    (hnames : ∀ name ∈ names, (Component.name name).Proper) :
    (((cwd.under names).child ignoreFileName).parent?.bind fun dir => dir.relativeTo? cwd) =
      some ⟨joinWith [slash] names⟩ := by
  rw [parent?_child (hcwd.under hnames).isTidy proper_ignoreFileName, Option.bind_some,
    relativeTo?_under hcwd hnames]

/-- A rule file below a directory is its own or that of a directory further down. -/
theorem IsRuleFile.exists_of_isAbove (h : IsRuleFile file) (hdir : dir.isAbsolute = true)
    (hbelow : dir.IsAbove file) : ∃ names : List RawText,
      (∀ name ∈ names, (Component.name name).Proper) ∧
        file = (dir.under names).child ignoreFileName := by
  obtain ⟨names, hne, hproper, rfl⟩ := hbelow
  obtain ⟨names, last, rfl⟩ := (List.eq_nil_or_concat names).resolve_left hne
  rw [List.concat_eq_append] at h hproper ⊢
  obtain ⟨hnames, hlast⟩ := List.forall_mem_append.mp hproper
  rw [List.forall_mem_singleton] at hlast
  have hname := h.2
  rw [under_concat, fileName?_child (components_under hdir hnames).1 hlast] at hname
  exact ⟨names, hnames, by rw [under_concat, Option.some.inj hname]⟩

theorem isAbove_child_under {names : List RawText}
    (hnames : ∀ name ∈ names, (Component.name name).Proper) :
    cwd.IsAbove ((cwd.under names).child ignoreFileName) := by
  refine ⟨names ++ [ignoreFileName], by simp, List.forall_mem_append.mpr
    ⟨hnames, List.forall_mem_singleton.mpr proper_ignoreFileName⟩, ?_⟩
  rw [under_concat]

/-! ## Reading rule files -/

theorem readLines_of_drop {place : Place} {lines : List Text}
    (h : readLines (t.drop place) file = .ok lines) : readLines t file = .ok lines := by
  unfold readLines at h ⊢
  split at h
  · next content hcontent =>
    rw [FileTree.readText_of_drop hcontent]
    exact h
  · cases h

theorem readLines_of_find_eq {p q : Path} {lines : List Text} (hfind : t.find p = t.find q)
    (h : readLines t p = .ok lines) : readLines t q = .ok lines := by
  have htext : t.readText q = t.readText p := by
    simp only [FileTree.readText, FileTree.readBytes, FileTree.lookup, hfind]
  unfold readLines at h ⊢
  rw [htext]
  split at h
  · exact h
  · cases h

theorem addUpwardFile_of_drop {place : Place} {rules' : RuleSet}
    (h : addUpwardFile (t.drop place) cwd rules file = .ok rules') :
    addUpwardFile t cwd rules file = .ok rules' := by
  unfold addUpwardFile at h ⊢
  split at h
  · cases h
  · next lines hlines =>
    rw [readLines_of_drop hlines]
    exact h

theorem addFiles_of_imp {add add' : RuleSet → Path → Except IgnoreError RuleSet}
    (himp : ∀ rules file rules', add' rules file = .ok rules' → add rules file = .ok rules')
    {files : List Path} {rules' : RuleSet} (h : addFiles add' rules files = .ok rules') :
    addFiles add rules files = .ok rules' := by
  induction files generalizing rules with
  | nil => exact h
  | cons file files ih =>
    rw [addFiles] at h ⊢
    split at h
    · cases h
    · next rules'' hadd =>
      rw [himp _ _ _ hadd]
      exact ih h

/-- The directory holds a rule file of its own, at its place `home`, that no other path below the
working directory leads to, and that is not the rule file of a directory above. -/
structure HasOwnRules (t : FileTree) (cwd dir : Path) (home : Place) : Prop where
  find : t.find dir = .ok home
  isDir : t.entry? home = some .dir
  isFile : ∃ content executable,
    t.entry? (home ++ [ignoreFileName]) = some (.file content executable)
  below : ∀ file, cwd.IsAbove file → t.find file = .ok (home ++ [ignoreFileName]) →
    file = dir.child ignoreFileName
  above : ∀ p ∈ cwd.ancestors, t.find (p.child ignoreFileName) ≠ .ok (home ++ [ignoreFileName])

theorem HasOwnRules.find_child {names : List RawText} (h : HasOwnRules t cwd (cwd.under names) home)
    (hcwd : cwd.IsNormal) (hnames : ∀ name ∈ names, (Component.name name).Proper) :
    t.find ((cwd.under names).child ignoreFileName) = .ok (home ++ [ignoreFileName]) := by
  obtain ⟨content, executable, hfile⟩ := h.isFile
  exact FileTree.find_child (hcwd.under hnames).isTidy proper_ignoreFileName h.find h.isDir hfile
    fun _ heq => by cases heq

/-- Without links nothing else leads to the rule file of a directory. -/
theorem HasOwnRules.of_linkFree (hlinks : t.LinkFree) (hcwd : cwd.IsNormal) {names : List RawText}
    (hne : names ≠ []) (hnames : ∀ name ∈ names, (Component.name name).Proper)
    (hfind : t.find (cwd.under names) = .ok home) (hdir : t.entry? home = some .dir)
    (hfile : ∃ content executable,
      t.entry? (home ++ [ignoreFileName]) = some (.file content executable)) :
    HasOwnRules t cwd (cwd.under names) home := by
  obtain ⟨lead, above, hnormal, hlead, habove⟩ := exists_normalize_eq hcwd.1
  rw [hcwd.2] at hnormal
  have hcomponents : cwd.components = lead ++ above.map Component.name := by
    rw [hnormal]
    exact (components_ofComponents_lead hlead habove).2
  have htops : ∀ c ∈ lead, c = .root ∨ c = .up := by
    rcases hlead with rfl | rfl <;> simp
  have htop : lead.foldl Component.walk [] = [] := Component.foldl_walk_top htops
  have hplace : ∀ {more : List RawText} {place : Place},
      (∀ name ∈ more, (Component.name name).Proper) → t.find (cwd.under more) = .ok place →
        place = above ++ more := by
    intro more place hmore hfind
    rw [FileTree.find_eq_foldl_walk hlinks hfind, (components_under hcwd.1 hmore).2, hcomponents,
      List.foldl_append, List.foldl_append, htop, Component.foldl_walk_names,
      Component.foldl_walk_names, List.nil_append]
  obtain rfl := hplace hnames hfind
  refine ⟨hfind, hdir, hfile, ?_, ?_⟩
  · rintro _ ⟨more, -, hmore, rfl⟩ hfile
    have hall := hplace hmore hfile
    rw [List.append_assoc] at hall
    rw [← List.append_cancel_left hall, under_concat]
  · intro p hp hfile
    obtain ⟨habsolute, hprefix⟩ := prefix_of_mem_ancestors hcwd.1 hp
    have hall := FileTree.find_eq_foldl_walk hlinks hfile
    rw [components_child_of_proper habsolute proper_ignoreFileName, List.foldl_append] at hall
    have hlast : above ++ names = p.components.foldl Component.walk [] :=
      List.append_inj_left' hall rfl
    obtain ⟨rest, hrest⟩ := hprefix
    rw [hcomponents] at hrest
    rcases List.append_eq_append_iff.mp hrest with ⟨_, hstart, -⟩ | ⟨_, hstart, hnames⟩
    · have hnone : p.components.foldl Component.walk [] = [] :=
        Component.foldl_walk_top fun c hc => htops c (hstart ▸ List.mem_append_left _ hc)
      exact hne (List.append_eq_nil_iff.mp (hlast.trans hnone)).2
    · obtain ⟨first, last, rfl, rfl, -⟩ := List.map_eq_append_iff.mp hnames
      rw [hstart, List.foldl_append, htop, Component.foldl_walk_names] at hlast
      have hlength := congrArg List.length hlast
      simp only [List.length_append, List.length_nil] at hlength
      exact hne (List.length_eq_zero_iff.mp (by omega))

theorem upwardFiles_drop (hcwd : cwd.IsNormal) (h : HasOwnRules t cwd dir home) :
    upwardFiles (t.drop (home ++ [ignoreFileName])) cwd = upwardFiles t cwd := by
  obtain ⟨content, executable, hfile⟩ := h.isFile
  unfold upwardFiles FileTree.upward
  rw [List.filterMap_map, List.filterMap_map]
  refine congrArg List.reverse (List.filterMap_congr fun p hp => ?_)
  have htidy : p.IsTidy := by
    obtain ⟨cs, hcs, heq⟩ := hcwd.isTidy
    rw [heq] at hp
    obtain ⟨cs', hstart, rfl⟩ := exists_of_mem_ancestors hcs hp
    exact ⟨cs', fun c hc => hcs c (hstart.subset hc), rfl⟩
  have hmem := FileTree.mem_listing_drop_iff hfile htidy proper_ignoreFileName
    (by decide) (h.above p hp)
  simp only [Function.comp_apply, List.contains_iff_mem, hmem]

/-! ## Adding nested rule files -/

/-- Whether a nested rule file counts, by the rules gathered before it. -/
def counts (cwd : Path) (rules : RuleSet) (file : Path) : Bool :=
  !(file.Same (cwd.child ignoreFileName)) &&
    (file.parent?.bind fun dir => dir.relativeTo? cwd).isSome && !rules.ignores cwd file false

/-- A file that does not count adds nothing, and any other one its lines, reworded. -/
theorem addNestedFile_eq_ok [IgnoreEngine] {rules' : RuleSet}
    (h : addNestedFile t cwd rules file = .ok rules') :
    (counts cwd rules file = false ∧ rules' = rules) ∨
      (counts cwd rules file = true ∧ ∃ relative lines,
        (file.parent?.bind fun dir => dir.relativeTo? cwd) = some relative ∧
          readLines t file = .ok lines ∧
            rules' = rules.addLines (lines.map fun line => lineFromBelow line relative.text)
              (file.parent?.getD cwd)) := by
  unfold addNestedFile at h
  split at h
  · next hsame => exact .inl ⟨by simp [counts, hsame], (Except.ok.inj h).symm⟩
  · next hsame =>
    split at h
    · next hnone => exact .inl ⟨by simp [counts, hnone], (Except.ok.inj h).symm⟩
    · next relative hrelative =>
      split at h
      · cases h
      · next built hbuilt =>
        rw [(RuleSet.built_eq_ok_iff.mp hbuilt).2] at h
        split at h
        · next hignored => exact .inl ⟨by simp [counts, hignored], (Except.ok.inj h).symm⟩
        · next hignored =>
          split at h
          · cases h
          · next lines hlines =>
            exact .inr ⟨by simp [counts, hsame, hrelative, hignored], relative, lines, hrelative,
              hlines, (Except.ok.inj h).symm⟩

/-- A file whose lines stay below is of no interest outside. -/
theorem agreeOutside_addNestedFile_left [IgnoreEngine] {A A' B : RuleSet}
    (h : AgreeOutside lead A B) (hadd : addNestedFile t cwd A file = .ok A')
    (hlines : ∀ relative lines,
      (file.parent?.bind fun dir => dir.relativeTo? cwd) = some relative →
        readLines t file = .ok lines → ∀ line ∈ lines,
          StaysBelow lead (lineFromBelow line relative.text) ∨
            StaysBelow [dot, dot] (lineFromBelow line relative.text)) :
    AgreeOutside lead A' B := by
  rcases addNestedFile_eq_ok hadd with ⟨-, rfl⟩ | ⟨-, relative, lines, hrelative, hread, rfl⟩
  · exact h
  · refine h.addLines_left fun line hline => ?_
    obtain ⟨line, hmem, rfl⟩ := List.mem_map.mp hline
    exact hlines relative lines hrelative hread line hmem

/-- A file that is ignored or not ignored by both sets of rules adds the same lines to both. -/
theorem agreeOutside_addNestedFile [IgnoreEngine] {place : Place} {A A' B B' : RuleSet}
    (h : AgreeOutside lead A B)
    (hignores : A.ignores cwd file false = B.ignores cwd file false)
    (hA : addNestedFile t cwd A file = .ok A')
    (hB : addNestedFile (t.drop place) cwd B file = .ok B') : AgreeOutside lead A' B' := by
  have hcounts : counts cwd A file = counts cwd B file := by rw [counts, counts, hignores]
  rcases addNestedFile_eq_ok hA with ⟨hno, rfl⟩ | ⟨hyes, relative, lines, hrelative, hlines, rfl⟩
  · rcases addNestedFile_eq_ok hB with ⟨-, rfl⟩ | ⟨hyes, -⟩
    · exact h
    · rw [← hcounts, hno] at hyes
      cases hyes
  · rcases addNestedFile_eq_ok hB with ⟨hno, -⟩ | ⟨-, relative', lines', hrelative', hlines', rfl⟩
    · rw [← hcounts, hyes] at hno
      cases hno
    · obtain rfl := Option.some.inj (hrelative.symm.trans hrelative')
      obtain rfl := Except.ok.inj (hlines.symm.trans (readLines_of_drop hlines'))
      exact h.addLines _ _

section Removal

variable {names : List RawText} (hcwd : cwd.IsNormal) (hne : names ≠ [])
  (hproper : ∀ name ∈ names, (Component.name name).Proper)
  (hutf8 : IsUtf8 (joinWith [slash] names))
  (hlead : ReadAsItself (ofBytes (joinWith [slash] names)))
  (hown : HasOwnRules t cwd (cwd.under names) home)
  (hbare : ∀ lines, readLines t ((cwd.under names).child ignoreFileName) = .ok lines →
    ∀ line ∈ lines, isBareSlash line = false)

theorem readAsItself_joinWith (hne : names ≠ [])
    (hproper : ∀ name ∈ names, (Component.name name).Proper)
    (hordinary : ∀ c ∈ ofBytes (joinWith [slash] names), IgnoreGlob.IsOrdinary c)
    (hmark : (ofBytes (joinWith [slash] names)).head? ≠ some '!') :
    ReadAsItself (ofBytes (joinWith [slash] names)) := by
  refine ⟨hordinary, ?_⟩
  obtain ⟨name, rest, rfl⟩ := List.exists_cons_of_ne_nil hne
  have hname := hproper name List.mem_cons_self
  obtain ⟨b, start, rfl⟩ := List.exists_cons_of_ne_nil (show name ≠ [] from hname.raw_ne_nil)
  have hslash : (ofBytes (joinWith [slash] ((b :: start) :: rest))).head? ≠ some '/' := by
    rw [Ne, head?_ofBytes_eq_slash_iff, joinWith_cons_eq]
    rintro heq
    obtain rfl := Option.some.inj heq
    exact hname.2 List.mem_cons_self
  have hsome : ofBytes (joinWith [slash] ((b :: start) :: rest)) ≠ [] := by
    rw [Ne, ofBytes_eq_nil_iff, joinWith_cons_eq]
    exact List.cons_ne_nil _ _
  obtain ⟨c, shown, hshown⟩ := List.exists_cons_of_ne_nil hsome
  rw [hshown] at hmark hslash
  exact ⟨c, shown, hshown, fun heq => hmark (congrArg some heq),
    fun heq => hslash (congrArg some heq)⟩

include hcwd hne hproper hutf8 hlead in
/-- The lines of a rule file further down stay below the directory. -/
theorem staysBelow_of_deeper {more : List RawText} (hmore : more ≠ [])
    (hproper' : ∀ name ∈ more, (Component.name name).Proper) {relative : Path}
    (hrelative : ((((cwd.under names).under more).child ignoreFileName).parent?.bind fun dir =>
      dir.relativeTo? cwd) = some relative) (line : Text) :
    StaysBelow (joinWith [slash] names) (lineFromBelow line relative.text) := by
  have hall : ∀ name ∈ names ++ more, (Component.name name).Proper :=
    List.forall_mem_append.mpr ⟨hproper, hproper'⟩
  rw [← under_append, relativeTo?_parent hcwd hall] at hrelative
  obtain rfl := Option.some.inj hrelative
  have htext : ofBytes (joinWith [slash] (names ++ more)) =
      ofBytes (joinWith [slash] names) ++ '/' :: ofBytes (joinWith [slash] more) := by
    rw [joinWith_append hne hmore, ofBytes_append_slash]
  have hlast := mt getLast?_ofBytes_eq_slash_iff.mp (getLast?_joinWith_names hall)
  rw [htext] at hlast
  have hstays := staysBelow_lineFromBelow_deeper hlead hlast line
  rwa [hutf8, ← htext] at hstays

include hcwd hproper hutf8 hlead hbare in
/-- So do the lines of the rule file of the directory itself, and of what leads to it from outside
of the working directory no path that is asked for is matched. -/
theorem staysBelow_of_find_eq (hrule : IsRuleFile file)
    (hown : HasOwnRules t cwd (cwd.under names) home)
    (hfind : t.find file = .ok (home ++ [ignoreFileName])) {relative : Path} {lines : List Text}
    (hrelative : (file.parent?.bind fun dir => dir.relativeTo? cwd) = some relative)
    (hlines : readLines t file = .ok lines) {line : Text} (hline : line ∈ lines) :
    StaysBelow (joinWith [slash] names) (lineFromBelow line relative.text) ∨
      StaysBelow [dot, dot] (lineFromBelow line relative.text) := by
  have hline' : isBareSlash line = false :=
    hbare lines (readLines_of_find_eq (hfind.trans (hown.find_child hcwd hproper).symm) hlines) line
      hline
  by_cases hbelow : cwd.IsAbove file
  · rw [hown.below file hbelow hfind, relativeTo?_parent hcwd hproper] at hrelative
    obtain rfl := Option.some.inj hrelative
    have hstays := staysBelow_lineFromBelow hlead
      (mt getLast?_ofBytes_eq_slash_iff.mp (getLast?_joinWith_names hproper)) hline'
    rw [hutf8] at hstays
    exact .inl hstays
  · have hup : ReadAsItself ['.', '.'] :=
      ⟨List.all_iff_forall_prop.mp (by decide), '.', ['.'], rfl, by decide, by decide⟩
    rcases hrule.relative_cases hcwd hrelative with ⟨more, hmore, heq, -⟩ | ⟨hraw, hlast⟩
    · exact absurd (heq ▸ isAbove_child_under hmore) hbelow
    · rcases hraw with hraw | ⟨more, hraw⟩
      · have htext : relative.text = ['.', '.'] := by
          rw [Path.text, hraw]
          rfl
        rw [htext]
        exact .inr (staysBelow_lineFromBelow hup (by decide) hline')
      · have htext : relative.text = ['.', '.'] ++ '/' :: ofBytes more := by
          rw [Path.text, hraw, ofBytes_append_slash]
          rfl
        rw [Ne, ← getLast?_ofBytes_eq_slash_iff, ← Path.text, htext] at hlast
        rw [htext]
        exact .inr (staysBelow_lineFromBelow_deeper hup hlast line)

include hcwd hne hproper hutf8 hlead hown hbare in
/-- With the rule file and without it the gathered rules agree outside of its directory. -/
theorem agreeOutside_addFiles [IgnoreEngine] {files : List Path}
    (hfiles : ∀ file ∈ files, IsRuleFile file) {A A' B B' : RuleSet}
    (h : AgreeOutside (joinWith [slash] names) A B)
    (hA : addFiles (addNestedFile t cwd) A files = .ok A')
    (hB : addFiles (addNestedFile (t.drop (home ++ [ignoreFileName])) cwd) B
      (files.filter fun file => t.find file ≠ .ok (home ++ [ignoreFileName])) = .ok B') :
    AgreeOutside (joinWith [slash] names) A' B' := by
  have hdir : (cwd.under names).IsNormal := hcwd.under hproper
  induction files generalizing A B with
  | nil =>
    obtain rfl := Except.ok.inj hA
    obtain rfl := Except.ok.inj hB
    exact h
  | cons file files ih =>
    obtain ⟨hrule, hrest⟩ := List.forall_mem_cons.mp hfiles
    rw [addFiles] at hA
    split at hA
    · cases hA
    · next A'' hA'' =>
      by_cases hfind : t.find file = .ok (home ++ [ignoreFileName])
      · rw [List.filter_cons_of_neg (by simpa using hfind)] at hB
        refine ih hrest (agreeOutside_addNestedFile_left h hA'' ?_) hA hB
        exact fun relative lines hrelative hlines line hline =>
          staysBelow_of_find_eq hcwd hproper hutf8 hlead hbare hrule hown hfind hrelative hlines
            hline
      · rw [List.filter_cons_of_pos (by simpa using hfind), addFiles] at hB
        split at hB
        · cases hB
        · next B'' hB'' =>
          refine ih hrest ?_ hA hB
          by_cases hbelow : (cwd.under names).IsAbove file
          · obtain ⟨more, hmore, rfl⟩ := hrule.exists_of_isAbove hdir.1 hbelow
            have hdeeper : more ≠ [] := by
              rintro rfl
              exact hfind (hown.find_child hcwd hproper)
            have hstays : ∀ relative : Path,
                ((((cwd.under names).under more).child ignoreFileName).parent?.bind fun dir =>
                  dir.relativeTo? cwd) = some relative → ∀ line,
                    StaysBelow (joinWith [slash] names) (lineFromBelow line relative.text) :=
              fun _ hrelative line =>
                staysBelow_of_deeper hcwd hne hproper hutf8 hlead hdeeper hmore hrelative line
            have hleft := agreeOutside_addNestedFile_left h hA''
              fun relative _ hrelative _ line _ => .inl (hstays relative hrelative line)
            exact (agreeOutside_addNestedFile_left hleft.symm hB''
              fun relative _ hrelative _ line _ => .inl (hstays relative hrelative line)).symm
          · refine agreeOutside_addNestedFile h ?_ hA'' hB''
            refine h.ignores_eq hcwd.1 hdir hproper (components_under hcwd.1 hproper).2
              (.inl hrule.1.1) ?_
            rwa [absolutize, hrule.1.1, if_pos rfl, hrule.1.2]

end Removal

/-! ## The reach of a nested rule file -/

/-- The rules that are gathered before the search for nested rule files. -/
def upwardRules (t : FileTree) (cwd : Path) : Except IgnoreError RuleSet :=
  addFiles (addUpwardFile t cwd) (RuleSet.addLine [] (ofBytes packagesName) cwd)
    (upwardFiles t cwd)

/-- Once the rule files are read, what is left is to add the patterns of the caller and to make a
matcher of all the rules. -/
theorem build_eq [IgnoreEngine] {upward nested : RuleSet} (hupward : upwardRules t cwd = .ok upward)
    (hbuilt : IgnoreEngine.refusal? upward.patterns = none)
    (hnested : addFiles (addNestedFile t cwd) upward (nestedFiles t cwd upward roots) = .ok nested)
    (patterns : List Text) :
    build t cwd roots patterns = (nested.addLines patterns cwd).built.map (mk cwd) := by
  rw [upwardRules] at hupward
  rw [build, hupward]
  dsimp only
  rw [RuleSet.built_eq_ok_iff.mpr ⟨hbuilt, rfl⟩]
  dsimp only
  rw [hnested]
  dsimp only
  cases (nested.addLines patterns cwd).built <;> rfl

theorem build_eq_ok_iff [IgnoreEngine] {patterns : List Text} {r : IgnoreResolver} :
    build t cwd roots patterns = .ok r ↔ ∃ upward nested, upwardRules t cwd = .ok upward ∧
      IgnoreEngine.refusal? upward.patterns = none ∧
      addFiles (addNestedFile t cwd) upward (nestedFiles t cwd upward roots) = .ok nested ∧
      IgnoreEngine.refusal? (nested.addLines patterns cwd).patterns = none ∧
      r = ⟨cwd, nested.addLines patterns cwd⟩ := by
  constructor
  · intro h
    unfold build at h
    dsimp only at h
    split at h
    · cases h
    · next upward hupward =>
      split at h
      · cases h
      · next pruning hpruning =>
        obtain ⟨hupwardBuilt, rfl⟩ := RuleSet.built_eq_ok_iff.mp hpruning
        split at h
        · cases h
        · next nested hnested =>
          split at h
          · cases h
          · next rules hrules =>
            obtain ⟨hbuilt, rfl⟩ := RuleSet.built_eq_ok_iff.mp hrules
            exact ⟨_, nested, hupward, hupwardBuilt, hnested, hbuilt, (Except.ok.inj h).symm⟩
  · rintro ⟨upward, nested, hupward, hupwardBuilt, hnested, hbuilt, rfl⟩
    rw [build_eq hupward hupwardBuilt hnested, RuleSet.built_eq_ok_iff.mpr ⟨hbuilt, rfl⟩]
    rfl

/-- The rules of a nested rule file reach only below its directory, if the name of the directory is
read as itself and no line of the file is a bare slash: taking the file away makes no difference to
any other path. -/
theorem nestedRules_reach_below [IgnoreEngine] {relative q : Path} {patterns : List Text}
    {r r' : IgnoreResolver}
    (hnames : t.NamesProper) (hcwd : cwd.IsNormal) (hdir : cwd.IsAbove dir)
    (hrelative : dir.relativeTo? cwd = some relative)
    (hutf8 : IsUtf8 relative.raw) (hordinary : ∀ c ∈ relative.text, IgnoreGlob.IsOrdinary c)
    (hmark : relative.text.head? ≠ some '!') (hown : HasOwnRules t cwd dir home)
    (hbare : ∀ lines, readLines t (dir.child ignoreFileName) = .ok lines →
      ∀ line ∈ lines, isBareSlash line = false)
    (hwith : build t cwd roots patterns = .ok r)
    (hwithout : build (t.remove (dir.child ignoreFileName)) cwd roots patterns = .ok r')
    (hq : q.isAbsolute = true ∨ q.IsTrimmed) (hbelow : ¬ dir.IsAbove (cwd.absolutize q)) :
    r.isIgnored q = r'.isIgnored q ∧ r.isDirIgnored q = r'.isDirIgnored q := by
  obtain ⟨names, hne, hproper, rfl⟩ := hdir
  obtain ⟨content, executable, hfile⟩ := hown.isFile
  have hdir : (cwd.under names).IsNormal := hcwd.under hproper
  obtain rfl : relative = ⟨joinWith [slash] names⟩ := by
    rw [relativeTo?_under hcwd hproper] at hrelative
    exact (Option.some.inj hrelative).symm
  have hlead : ReadAsItself (ofBytes (joinWith [slash] names)) :=
    readAsItself_joinWith hne hproper hordinary hmark
  rw [FileTree.remove_child hdir.isTidy proper_ignoreFileName hown.find] at hwithout
  obtain ⟨upward, nested, hupward, -, hnested, -, rfl⟩ := build_eq_ok_iff.mp hwith
  obtain ⟨upward', nested', hupward', -, hnested', -, rfl⟩ := build_eq_ok_iff.mp hwithout
  -- Up to the working directory the two runs read the same files.
  rw [upwardRules, upwardFiles_drop hcwd hown] at hupward'
  have hsame : upward' = upward := by
    have hread := addFiles_of_imp (fun _ _ _ => addUpwardFile_of_drop) hupward'
    exact Except.ok.inj (hread.symm.trans hupward)
  rw [hsame, nestedFiles_drop hfile hnames hcwd.1] at hnested'
  have hagree : AgreeOutside (joinWith [slash] names) nested nested' :=
    agreeOutside_addFiles hcwd hne hproper hutf8 hlead hown hbare
      (fun file => isRuleFile_of_mem_nestedFiles hnames hcwd.1) (.refl _ upward) hnested hnested'
  have hall := hagree.addLines patterns cwd
  exact ⟨hall.ignores_eq hcwd.1 hdir hproper (components_under hcwd.1 hproper).2 hq hbelow,
    hall.ignores_eq hcwd.1 hdir hproper (components_under hcwd.1 hproper).2 hq hbelow⟩

theorem exists_ok_of_map {ε α β : Type} {x : Except ε α} {f : α → β} {b : β}
    (h : x.toOption.map f = some b) : ∃ a, x = .ok a ∧ f a = b := by
  cases x with
  | error e => cases h
  | ok a => exact ⟨a, rfl, Option.some.inj h⟩

/-- Two directories with rule files of their own. -/
def siblingDirs : FileTree :=
  ⟨[([.ofString "w"], .dir), ([.ofString "w", .ofString "pkg"], .dir),
    ([.ofString "w", .ofString "pkg", ignoreFileName],
      .file (toUtf8 "# output\ndist\n!/dist/keep\n".toList) false),
    ([.ofString "w", .ofString "other"], .dir),
    ([.ofString "w", .ofString "other", ignoreFileName], .file (toUtf8 "/out\n".toList) false)]⟩

theorem nestedRules_reach_below_siblingDirs :
    ∃ r r', build siblingDirs (.ofString "/w") [.ofString "."] ["tmp".toList] = .ok r ∧
      build (siblingDirs.remove
          (((Path.ofString "/w").under [.ofString "pkg"]).child ignoreFileName))
        (.ofString "/w") [.ofString "."] ["tmp".toList] = .ok r' ∧
      r.isIgnored (.ofString "pkg/dist") = true ∧ r'.isIgnored (.ofString "pkg/dist") = false ∧
      r.isIgnored (.ofString "other/dist") = r'.isIgnored (.ofString "other/dist") ∧
      r.isDirIgnored (.ofString "other/dist") = r'.isDirIgnored (.ofString "other/dist") := by
  obtain ⟨r, hr, hignored⟩ : ∃ r, build siblingDirs (.ofString "/w") [.ofString "."]
      ["tmp".toList] = .ok r ∧ r.isIgnored (.ofString "pkg/dist") = true :=
    exists_ok_of_map (by decide +kernel)
  obtain ⟨r', hr', hignored'⟩ : ∃ r', build (siblingDirs.remove
      (((Path.ofString "/w").under [.ofString "pkg"]).child ignoreFileName)) (.ofString "/w")
        [.ofString "."] ["tmp".toList] = .ok r' ∧ r'.isIgnored (.ofString "pkg/dist") = false :=
    exists_ok_of_map (by decide +kernel)
  have hnames : siblingDirs.NamesProper := by
    unfold FileTree.NamesProper Component.Proper
    decide +kernel
  have hlinks : siblingDirs.LinkFree := by
    unfold FileTree.LinkFree siblingDirs
    simp
  have hcwd : (Path.ofString "/w").IsNormal := ⟨by decide, by decide +kernel⟩
  have hproper : ∀ name ∈ [.ofString "pkg"], (Component.name name).Proper := by
    unfold Component.Proper
    decide
  have hown : HasOwnRules siblingDirs (.ofString "/w")
      ((Path.ofString "/w").under [.ofString "pkg"]) [.ofString "w", .ofString "pkg"] :=
    .of_linkFree hlinks hcwd (by decide) hproper (by decide +kernel) (by decide +kernel)
      ⟨_, _, rfl⟩
  have hread : readLines siblingDirs
      (((Path.ofString "/w").under [.ofString "pkg"]).child ignoreFileName) =
        .ok ["# output".toList, "dist".toList, "!/dist/keep".toList] := by
    decide +kernel
  refine ⟨r, r', hr, hr', hignored, hignored', nestedRules_reach_below hnames hcwd
    ⟨_, by decide, hproper, rfl⟩ (relativeTo?_under hcwd hproper) (by decide)
    (List.all_iff_forall_prop.mp (by decide)) (by decide) hown ?_ hr hr'
    (.inr ⟨by decide, by decide⟩) fun hbelow => ?_⟩
  · intro lines hlines
    rw [hread] at hlines
    obtain rfl := Except.ok.inj hlines
    decide +kernel
  · obtain ⟨below, hraw⟩ := hbelow.exists_raw (by decide) (by decide)
    have hprefix : ((Path.ofString "/w").under [.ofString "pkg"]).raw <+:
        ((Path.ofString "/w").absolutize (.ofString "other/dist")).raw := ⟨_, hraw.symm⟩
    exact absurd hprefix (by decide +kernel)

/-- A directory `work[1]` with rules, beside a directory `work1`. -/
def bracketedDir : FileTree :=
  ⟨[([.ofString "w"], .dir), ([.ofString "w", .ofString "work[1]"], .dir),
    ([.ofString "w", .ofString "work1"], .dir),
    ([.ofString "w", .ofString "work[1]", ignoreFileName], .file (toUtf8 "dist\n".toList) false)]⟩

/-- The name of a directory is not always read as itself: the rule `dist` of `work[1]` is read as
`work[1]/**/dist`, which matches in `work1`. -/
theorem nestedRules_reach_bracketedDir :
    ∃ r r', build bracketedDir (.ofString "/w") [.ofString "."] [] = .ok r ∧
      build (bracketedDir.remove ((Path.ofString "/w/work[1]").child ignoreFileName))
        (.ofString "/w") [.ofString "."] [] = .ok r' ∧
      ¬ (Path.ofString "/w/work[1]").IsAbove (.ofString "/w/work1/dist") ∧
      r.isIgnored (.ofString "/w/work1/dist") = true ∧
        r'.isIgnored (.ofString "/w/work1/dist") = false := by
  obtain ⟨r, hr, hignored⟩ : ∃ r, build bracketedDir (.ofString "/w") [.ofString "."] [] = .ok r ∧
      r.isIgnored (.ofString "/w/work1/dist") = true :=
    exists_ok_of_map (by decide +kernel)
  obtain ⟨r', hr', hignored'⟩ : ∃ r', build (bracketedDir.remove
      ((Path.ofString "/w/work[1]").child ignoreFileName)) (.ofString "/w") [.ofString "."] [] =
        .ok r' ∧ r'.isIgnored (.ofString "/w/work1/dist") = false :=
    exists_ok_of_map (by decide +kernel)
  refine ⟨r, r', hr, hr', fun hbelow => ?_, hignored, hignored'⟩
  obtain ⟨below, hraw⟩ := hbelow.exists_raw (by decide) (by decide)
  have hprefix : (Path.ofString "/w/work[1]").raw <+: (Path.ofString "/w/work1/dist").raw :=
    ⟨_, hraw.symm⟩
  exact absurd hprefix (by decide)

end Typesweep.IgnoreResolver
