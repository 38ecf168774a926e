import Typesweep.Proofs.Ignore.Gathering
import Typesweep.Proofs.Ignore.Rewording
import Typesweep.Proofs.Path.Above

/-!
# Which rule decides

The rules of a run come from layers: the fixed rule for installed packages, the rule files of the
directories above the working directory and its own, the nested rule files that count, and the
patterns of the caller. They stand in one list, and the last rule in it that matches a path decides.
As the list is put together, this is the last one of the highest layer with a rule that matches.

Nested rule files at the same depth are not ranked among each other, which makes no difference: the
rules of a nested file match only its directory and what lies below it, if the names of directories
are read as themselves.

* `Layer`, `Layer.Outranks`: the layers and their order.
* `Gathered.patterns_eq`: the rules of a run, layer by layer.
* `Layer.prefix_of_nested`: where the rules of a nested file match.
* `decided_by_highest_layer`: the rule that decides.
-/

namespace Typesweep.IgnoreResolver

open Typesweep.Path Text
open RawText (slash dot)

variable {t : FileTree} {cwd file : Path} {rules upward : RuleSet} {names : List RawText}
  {patterns : List Text} {roots loaded files : List Path} {r : IgnoreResolver} {isDir : Bool}

/-! ## Layers -/

/-- Where a rule comes from. -/
inductive Layer
  | packages
  /-- The rule file of the working directory, or of a directory above it. -/
  | upward (file : Path)
  /-- The rule file of a directory below the working directory. -/
  | nested (file : Path)
  | caller

/-- The lines that the rule file of the working directory or of a directory above it adds. -/
def upwardLines (t : FileTree) (cwd file : Path) : List Text :=
  match readLines t file with
  | .error _ => []
  | .ok lines =>
    if (file.parent?.getD cwd).Same cwd then lines else lines.filterMap lineFromAbove?

/-- The patterns of the valid rules of a layer, in their order. -/
def Layer.ownPatterns (t : FileTree) (cwd : Path) (patterns : List Text) :
    Layer → List IgnorePattern
  | .packages => linePatterns (ofBytes packagesName) cwd
  | .upward file =>
    (upwardLines t cwd file).flatMap fun line => linePatterns line (file.parent?.getD cwd)
  | .nested file =>
    (ownLines t cwd file).flatMap fun line => linePatterns line (file.parent?.getD cwd)
  | .caller => patterns.flatMap fun line => linePatterns line cwd

/-- The layers of a run, lowest first. -/
def layers (t : FileTree) (cwd : Path) (loaded : List Path) : List Layer :=
  .packages :: ((upwardFiles t cwd).map .upward ++ (loaded.map .nested ++ [.caller]))

/-- Whether the rules of the first layer override those of the second one. The deeper of two rule
files outranks the other. -/
def Layer.Outranks : Layer → Layer → Prop
  | .packages, _ => False
  | .upward _, .packages => True
  | .upward file, .upward other => other.components.length < file.components.length
  | .upward _, _ => False
  | .nested _, .packages => True
  | .nested _, .upward _ => True
  | .nested file, .nested other => other.components.length < file.components.length
  | .nested _, .caller => False
  | .caller, .caller => False
  | .caller, _ => True

/-- Whether the layers are nested rule files at the same depth, the first one later by its path. -/
def Layer.FollowsAtDepth : Layer → Layer → Prop
  | .nested file, .nested other =>
    other.components.length = file.components.length ∧ other.compare file = .lt
  | _, _ => False

/-- The last rule of a layer that matches the path of these names itself. -/
def Layer.lastMatch? (t : FileTree) (cwd : Path) (patterns : List Text) (layer : Layer)
    (names : List RawText) (isDir : Bool) : Option IgnorePattern :=
  (layer.ownPatterns t cwd patterns).reverse.find? fun p =>
    p.accepts (joinWith [slash] names) isDir

/-! ## The rules of a run -/

theorem addUpwardFile_patterns (patterns : List Text) {rules' : RuleSet}
    (h : addUpwardFile t cwd rules file = .ok rules') :
    rules'.patterns = rules.patterns ++ (Layer.upward file).ownPatterns t cwd patterns := by
  unfold addUpwardFile at h
  split at h
  · cases h
  · next lines hlines =>
    obtain rfl := Except.ok.inj h
    rw [RuleSet.patterns_addLines, Layer.ownPatterns, upwardLines, hlines]

theorem addFiles_upward_patterns (patterns : List Text) {rules' : RuleSet}
    (h : addFiles (addUpwardFile t cwd) rules files = .ok rules') :
    rules'.patterns =
      rules.patterns ++ (files.map .upward).flatMap (Layer.ownPatterns t cwd patterns) := by
  induction files generalizing rules with
  | nil =>
    obtain rfl := Except.ok.inj h
    exact (List.append_nil _).symm
  | cons file files ih =>
    rw [addFiles] at h
    split at h
    · cases h
    · next rules'' hadd =>
      rw [ih h, addUpwardFile_patterns patterns hadd, List.map_cons, List.flatMap_cons,
        List.append_assoc]

theorem foldl_addOwn_patterns_eq (patterns : List Text) (files : List Path) (rules : RuleSet) :
    (files.foldl (addOwn t cwd) rules).patterns =
      rules.patterns ++ (files.map .nested).flatMap (Layer.ownPatterns t cwd patterns) := by
  induction files generalizing rules with
  | nil => exact (List.append_nil _).symm
  | cons file files ih =>
    rw [List.foldl_cons, ih, addOwn, RuleSet.patterns_addLines, List.map_cons, List.flatMap_cons,
      List.append_assoc]
    rfl

/-- The rules of a run are those of its layers, from the lowest to the highest. -/
theorem Gathered.patterns_eq (h : Gathered t cwd roots patterns r upward loaded) :
    r.rules.patterns = (layers t cwd loaded).flatMap (Layer.ownPatterns t cwd patterns) := by
  obtain ⟨hupward, -, rfl⟩ := h
  rw [RuleSet.patterns_addLines, foldl_addOwn_patterns_eq patterns,
    addFiles_upward_patterns patterns hupward, RuleSet.patterns_addLine]
  simp [layers, Layer.ownPatterns, RuleSet.patterns]

/-! ## Where the rules of a nested file match -/

section Lines

variable {lead line rest mark : Text} {u : RawText} {scope : Path} {p : IgnorePattern}

/-- Blanks are all that is dropped behind a slash. -/
theorem trimLine_slash_blanks (h : rest.all isBlank = true) :
    IgnorePattern.trimLine ('/' :: rest) = ['/'] := by
  have hblank : ∀ c ∈ rest, isBlank c = true := List.all_eq_true.mp h
  have hends : Text.endsWith ['\\', ' '] ('/' :: rest) = false := by
    rw [Bool.eq_false_iff, ne_eq, Text.endsWith, List.isSuffixOf_iff_suffix]
    intro hsuffix
    rcases List.mem_cons.mp (hsuffix.mem List.mem_cons_self) with heq | hmem
    · exact absurd heq (by decide)
    · exact absurd (hblank _ hmem) (by decide)
  rw [IgnorePattern.trimLine, hends, if_neg Bool.false_ne_true, trimEnd, List.reverse_cons,
    List.dropWhile_append_of_pos fun c hc => hblank c (List.mem_reverse.mp hc)]
  rfl

/-- A line of nothing but a directory between slashes matches the directory itself. -/
theorem tokens_of_blanks (hlead : ReadAsItself lead) (hplain : ∀ c ∈ lead, IgnoreGlob.IsPlain c)
    (hhash : lead.head? ≠ some '#') (hmark : mark = [] ∨ mark = ['!'])
    (hblank : rest.all isBlank = true)
    (hp : p ∈ linePatterns (mark ++ (['/'] ++ (lead ++ '/' :: rest))) scope) :
    p.tokens = lead.map .literal := by
  have hassoc : ∀ t, mark ++ (['/'] ++ (lead ++ t)) = (mark ++ (['/'] ++ lead)) ++ t := by simp
  obtain ⟨rule, hrule, hline⟩ := mem_linePatterns_iff.mp hp
  obtain ⟨kept, hkept, hblank⟩ : ∃ kept,
      rule.line = mark ++ (['/'] ++ (lead ++ '/' :: kept)) ∧ kept.all isBlank = true := by
    have hslash : decide ('/' = '\r') = false := by decide
    obtain ⟨kept, hkept⟩ : ∃ kept,
        dropCarriageReturns ((mark ++ (['/'] ++ lead)) ++ '/' :: rest) =
          (mark ++ (['/'] ++ lead)) ++ '/' :: kept :=
      exists_trimEnd_append_cons hslash _ _
    have hshort : dropCarriageReturns ((mark ++ (['/'] ++ lead)) ++ '/' :: rest) <+:
        (mark ++ (['/'] ++ lead)) ++ '/' :: rest := prefix_trimEnd _ _
    rw [hkept, List.prefix_append_right_inj, List.cons_prefix_cons] at hshort
    refine ⟨kept, ?_, List.all_eq_true.mpr fun c hc =>
      List.all_eq_true.mp hblank c (hshort.2.mem hc)⟩
    rw [IgnoreRule.line_of_parse? hrule, hassoc, hassoc, hkept]
  rw [hkept, IgnorePattern.ofLine_behind_blanks hlead hplain hhash hmark
    (trimLine_slash_blanks hblank), IgnorePattern.Meaning.rule.injEq] at hline
  rw [← hline]

/-- The rules of a file in a directory match only the directory itself and what lies below it. -/
theorem eq_or_below_of_accepts (hlead : ReadAsItself lead)
    (hplain : ∀ c ∈ lead, IgnoreGlob.IsPlain c) (hhash : lead.head? ≠ some '#')
    (hlast : lead.getLast? ≠ some '/') (hp : p ∈ linePatterns (lineFromBelow line lead) scope)
    (haccepts : p.accepts u isDir = true) :
    u = toUtf8 lead ∨ ∃ below, u = toUtf8 lead ++ slash :: below := by
  cases hbare : isBareSlash line with
  | false => exact .inr ((staysBelow_lineFromBelow hlead hlast hbare).exists_below hp haccepts)
  | true =>
    left
    obtain ⟨rest, hsplit, hblank⟩ : ∃ rest, splitNegation (dropCarriageReturns line) =
        ((splitNegation (dropCarriageReturns line)).1, '/' :: rest) ∧ rest.all isBlank = true := by
      unfold isBareSlash at hbare
      split at hbare
      · next rest heq => exact ⟨rest, Prod.ext rfl heq, hbare⟩
      · cases hbare
    have htrim : trim (· = '/') lead = lead :=
      trim_eq_self (fun c hc => by simpa using fun h : c = '/' => hlead.head?_ne (h ▸ hc))
        fun c hc => by simpa using fun h : c = '/' => hlast (h ▸ hc)
    cases hrule : isBlankOrComment (dropCarriageReturns line) with
    | true =>
      have hnone : linePatterns (lineFromBelow line lead) scope = [] := by
        rw [lineFromBelow]
        simp only [hrule, if_true]
        rw [linePatterns, IgnoreRule.parse?_dropCarriageReturns, IgnoreRule.parse?]
        simp only [hrule, if_true]
      rw [hnone] at hp
      exact absurd hp List.not_mem_nil
    | false =>
      rw [lineFromBelow_anchored lead hrule hsplit, htrim] at hp
      have htokens := tokens_of_blanks hlead hplain hhash (mark_splitNegation _) hblank hp
      rw [IgnorePattern.accepts, htokens, Bool.and_eq_true] at haccepts
      exact IgnoreGlob.eq_of_accepts_literals haccepts.2

end Lines

/-- Whether the name of a directory is read as itself in every rule. -/
structure IsPlainName (name : RawText) : Prop where
  /-- It is shown as itself. -/
  utf8 : IsUtf8 name
  plain : ∀ c ∈ ofBytes name, IgnoreGlob.IsPlain c
  starts : (ofBytes name).head? ≠ some '!' ∧ (ofBytes name).head? ≠ some '#'

instance : DecidablePred IsPlainName := fun name =>
  have : Decidable (∀ c ∈ ofBytes name, IgnoreGlob.IsPlain c) :=
    List.decidableBAll IgnoreGlob.IsPlain (ofBytes name)
  decidable_of_iff (IsUtf8 name ∧ (∀ c ∈ ofBytes name, IgnoreGlob.IsPlain c) ∧
      (ofBytes name).head? ≠ some '!' ∧ (ofBytes name).head? ≠ some '#')
    ⟨fun h => ⟨h.1, h.2.1, h.2.2⟩, fun h => ⟨h.utf8, h.plain, h.starts⟩⟩

/-- Whether all directories below the working directory have such names. -/
def PlainBelow (t : FileTree) (cwd : Path) : Prop :=
  ∀ names : List RawText, (∀ name ∈ names, (Component.name name).Proper) →
    t.isDir (cwd.under names) = true → ∀ name ∈ names, IsPlainName name

/-- Without links the directories of a tree are its entries. -/
theorem PlainBelow.of_linkFree (hlinks : t.LinkFree) (hcwd : cwd.IsNormal)
    (h : ∀ e ∈ t.entries, e.2 = .dir → ∀ name ∈ e.1, IsPlainName name) : PlainBelow t cwd := by
  intro names hnames hdir name hname
  obtain ⟨place, hfind, hentry⟩ := FileTree.isDir_iff.mp hdir
  have hplace := FileTree.find_eq_foldl_walk hlinks hfind
  rw [(components_under hcwd.1 hnames).2, List.foldl_append, Component.foldl_walk_names] at hplace
  have hmem : name ∈ place := hplace ▸ List.mem_append_right _ hname
  exact h _ (FileTree.mem_entries_of_some (List.ne_nil_of_mem hmem) hentry) rfl name hmem

theorem isPlain_joinWith (h : ∀ name ∈ names, IsPlainName name) :
    ∀ c ∈ ofBytes (joinWith [slash] names), IgnoreGlob.IsPlain c := by
  cases names with
  | nil => exact fun c hc => absurd hc List.not_mem_nil
  | cons name names =>
    intro c hc
    rw [ofBytes_joinWith, List.map_cons, joinWith_cons_eq] at hc
    rcases List.mem_append.mp hc with hc | hc
    · exact (h name List.mem_cons_self).plain c hc
    · obtain ⟨_, hshown, hc⟩ := List.mem_flatMap.mp hc
      obtain ⟨other, hother, rfl⟩ := List.mem_map.mp hshown
      rcases List.mem_cons.mp hc with rfl | hc
      · decide
      · exact (h other (List.mem_cons_of_mem name hother)).plain c hc

theorem head?_joinWith_ne_of_plain (hne : names ≠ [])
    (hnames : ∀ name ∈ names, (Component.name name).Proper)
    (h : ∀ name ∈ names, IsPlainName name) :
    (ofBytes (joinWith [slash] names)).head? ≠ some '!' ∧
      (ofBytes (joinWith [slash] names)).head? ≠ some '#' := by
  obtain ⟨first, rest, rfl⟩ := List.exists_cons_of_ne_nil hne
  have hfirst : ofBytes first ≠ [] :=
    mt ofBytes_eq_nil_iff.mp (hnames first List.mem_cons_self).raw_ne_nil
  rw [ofBytes_joinWith, List.map_cons, joinWith_cons_eq, List.head?_append_of_ne_nil _ hfirst]
  exact (h first List.mem_cons_self).starts

theorem prefix_splitOn {lead u : RawText} (h : u = lead ∨ ∃ below, u = lead ++ slash :: below) :
    splitOn slash lead <+: splitOn slash u := by
  rcases h with rfl | ⟨below, rfl⟩
  · exact List.prefix_rfl
  · rw [splitOn_append_sep]
    exact List.prefix_append _ _

theorem isDir_of_mem_nestedFiles (hproper : t.NamesProper) (hcwd : cwd.IsNormal)
    (hnames : ∀ name ∈ names, (Component.name name).Proper)
    (h : (cwd.under names).child ignoreFileName ∈ nestedFiles t cwd rules roots) :
    t.isDir (cwd.under names) = true := by
  obtain ⟨-, root, -, hmem⟩ := (mem_nestedFiles_iff hproper hcwd.1).mp h
  obtain ⟨found, -, -, hfind, -⟩ := FileTree.exists_find_of_mem_filesBelow hmem
  exact FileTree.isDir_of_find_child (hcwd.under hnames).isTidy proper_ignoreFileName hfind

/-- The rules of a nested file match only what lies at or below its directory. -/
theorem Layer.prefix_of_nested (hproper : t.NamesProper) (hcwd : cwd.IsNormal)
    (hplain : PlainBelow t cwd) (h : Gathered t cwd roots patterns r upward loaded)
    (hfile : file ∈ loaded) (hne : names ≠ [])
    (hnames : ∀ name ∈ names, (Component.name name).Proper)
    (hmatch : (Layer.lastMatch? t cwd patterns (.nested file) names isDir).isSome) :
    ∃ above : List RawText, above <+: names ∧ file = (cwd.under above).child ignoreFileName := by
  have hcut : splitOn slash (joinWith [slash] names) = names :=
    splitOn_joinWith hne fun name hname => (hnames name hname).2
  obtain ⟨p, hp, haccepts⟩ := List.find?_isSome.mp hmatch
  obtain ⟨line, hline, hp⟩ := List.mem_flatMap.mp (List.mem_reverse.mp hp)
  have hsorted : (nestedFiles t cwd upward roots).Pairwise fun p q => compareDepth p q = .lt :=
    Order.sortDistinct_pairwise _
  rw [h.loaded_eq] at hfile
  obtain ⟨hnested, hcounts⟩ := (mem_loadedFiles_iff hsorted).mp hfile
  unfold ownLines at hline
  split at hline
  · next relative lines hrelative hlines =>
    obtain ⟨line, -, rfl⟩ := List.mem_map.mp hline
    rcases (isRuleFile_of_mem_nestedFiles hproper hcwd.1 hnested).relative_cases hcwd hrelative with
      ⟨above, habove, rfl, hraw⟩ | ⟨hraw, hlast⟩
    · refine ⟨above, ?_, rfl⟩
      have hnonempty : above ≠ [] := by
        rintro rfl
        have hsame : ((cwd.under []).child ignoreFileName).Same (cwd.child ignoreFileName) := rfl
        simp [counts, hsame] at hcounts
      have hnamesPlain := hplain above habove (isDir_of_mem_nestedFiles hproper hcwd habove hnested)
      have hchars := isPlain_joinWith hnamesPlain
      have hhead := head?_joinWith_ne_of_plain hnonempty habove hnamesPlain
      have hlead : ReadAsItself (ofBytes (joinWith [slash] above)) :=
        readAsItself_joinWith hnonempty habove (fun c hc => (hchars c hc).1) hhead.1
      have hutf8 : IsUtf8 (joinWith [slash] above) :=
        isUtf8_joinWith fun name hname => (hnamesPlain name hname).utf8
      rw [Path.text, hraw] at hp
      have hbelow := eq_or_below_of_accepts hlead hchars hhead.2
        (mt getLast?_ofBytes_eq_slash_iff.mp (getLast?_joinWith_names habove)) hp haccepts
      rw [hutf8] at hbelow
      have hprefix := prefix_splitOn hbelow
      rwa [hcut, splitOn_joinWith hnonempty fun name hname => (habove name hname).2] at hprefix
    · -- Nothing that is asked for lies above the top of the tree.
      have hup : ReadAsItself ['.', '.'] :=
        ⟨List.all_iff_forall_prop.mp (by decide), '.', ['.'], rfl, by decide, by decide⟩
      have hplainUp : ∀ c ∈ ['.', '.'], IgnoreGlob.IsPlain c :=
        List.all_iff_forall_prop.mp (by decide)
      have hbelow : joinWith [slash] names = [dot, dot] ∨
          ∃ below, joinWith [slash] names = [dot, dot] ++ slash :: below := by
        rcases hraw with hraw | ⟨more, hraw⟩
        · rw [Path.text, hraw] at hp
          exact eq_or_below_of_accepts hup hplainUp (by decide) (by decide) hp haccepts
        · have htext : relative.text = ['.', '.'] ++ '/' :: ofBytes more := by
            rw [Path.text, hraw, ofBytes_append_slash]
            rfl
          rw [Ne, ← getLast?_text_iff, htext] at hlast
          rw [htext] at hp
          exact .inr ((staysBelow_lineFromBelow_deeper hup hlast line).exists_below hp haccepts)
      have hprefix := prefix_splitOn hbelow
      rw [hcut] at hprefix
      have hmem : [dot, dot] ∈ names := hprefix.mem (by decide)
      exact absurd (hnames _ hmem).1 (by decide)
  · exact absurd hline List.not_mem_nil

/-! ## The order of the layers -/

/-- The files above the working directory come from the top down. -/
theorem upwardFiles_pairwise (hcwd : cwd.IsNormal) :
    (upwardFiles t cwd).Pairwise fun p q => p.components.length < q.components.length := by
  rw [upwardFiles, FileTree.upward, List.pairwise_reverse, List.filterMap_map,
    List.pairwise_filterMap]
  have hlength : ∀ dir ∈ cwd.ancestors,
      (dir.child ignoreFileName).components.length = dir.components.length + 1 := by
    intro dir hdir
    have habsolute := (prefix_of_mem_ancestors hcwd.1 hdir).1
    rw [components_child_of_proper habsolute proper_ignoreFileName, List.length_append]
    rfl
  refine (ancestors_pairwise hcwd.1).imp_of_mem ?_
  intro dir above hdir habove hlt file hfile other hother
  rw [Function.comp_apply, Option.ite_none_right_eq_some] at hfile hother
  obtain rfl := Option.some.inj hfile.2
  obtain rfl := Option.some.inj hother.2
  rw [hlength dir hdir, hlength above habove]
  exact Nat.succ_lt_succ hlt

theorem compareDepth_eq_lt_iff {p q : Path} : compareDepth p q = .lt ↔
    p.components.length < q.components.length ∨
      p.components.length = q.components.length ∧ p.compare q = .lt := by
  rw [compareDepth, Ordering.then_eq_lt, Nat.compare_eq_lt, Nat.compare_eq_eq]

theorem length_components_ruleFile (hcwd : cwd.IsNormal)
    (hnames : ∀ name ∈ names, (Component.name name).Proper) :
    ((cwd.under names).child ignoreFileName).components.length =
      cwd.components.length + names.length + 1 := by
  rw [components_child_of_proper (components_under hcwd.1 hnames).1 proper_ignoreFileName,
    (components_under hcwd.1 hnames).2]
  simp [Nat.add_assoc]

/-- Of two layers the later one outranks the earlier one, or they are nested files at one depth. -/
theorem layers_pairwise (hcwd : cwd.IsNormal)
    (h : Gathered t cwd roots patterns r upward loaded) :
    (layers t cwd loaded).Pairwise fun lower higher =>
      higher.Outranks lower ∨ higher.FollowsAtDepth lower := by
  have hfiles : loaded.Pairwise fun p q => compareDepth p q = .lt := by
    rw [h.loaded_eq]
    exact (Order.sortDistinct_pairwise _).sublist (loadedFiles_sublist ..)
  rw [layers, List.pairwise_cons, List.pairwise_append, List.pairwise_append, List.pairwise_map,
    List.pairwise_map]
  refine ⟨?_, (upwardFiles_pairwise hcwd).imp fun hdepth => .inl hdepth,
    ⟨hfiles.imp fun hcompare => compareDepth_eq_lt_iff.mp hcompare, List.pairwise_singleton _ _,
      ?_⟩, ?_⟩
  · intro higher hhigher
    cases higher with
    | packages => simp at hhigher
    | upward | nested | caller => exact .inl trivial
  · intro lower hlower higher hhigher
    obtain ⟨file, -, rfl⟩ := List.mem_map.mp hlower
    obtain rfl := List.mem_singleton.mp hhigher
    exact .inl trivial
  · intro lower hlower higher hhigher
    obtain ⟨file, -, rfl⟩ := List.mem_map.mp hlower
    rcases List.mem_append.mp hhigher with hhigher | hhigher
    · obtain ⟨other, -, rfl⟩ := List.mem_map.mp hhigher
      exact .inl trivial
    · obtain rfl := List.mem_singleton.mp hhigher
      exact .inl trivial

theorem mem_loaded_of_mem_layers (h : Layer.nested file ∈ layers t cwd loaded) : file ∈ loaded := by
  simpa [layers] using h

/-- At one depth only one directory lies above a path. -/
theorem Layer.not_followsAtDepth (hproper : t.NamesProper) (hcwd : cwd.IsNormal)
    (hplain : PlainBelow t cwd) (h : Gathered t cwd roots patterns r upward loaded)
    (hne : names ≠ []) (hnames : ∀ name ∈ names, (Component.name name).Proper)
    {layer other : Layer} (hlayer : layer ∈ layers t cwd loaded)
    (hother : other ∈ layers t cwd loaded)
    (hmatch : (layer.lastMatch? t cwd patterns names isDir).isSome)
    (hmatch' : (other.lastMatch? t cwd patterns names isDir).isSome) :
    ¬ layer.FollowsAtDepth other := by
  intro hfollows
  match layer, other, hfollows with
  | .nested file, .nested other, ⟨hdepth, hcompare⟩ =>
    obtain ⟨above, habove, rfl⟩ := Layer.prefix_of_nested hproper hcwd hplain h
      (mem_loaded_of_mem_layers hlayer) hne hnames hmatch
    obtain ⟨above', habove', rfl⟩ := Layer.prefix_of_nested hproper hcwd hplain h
      (mem_loaded_of_mem_layers hother) hne hnames hmatch'
    rw [length_components_ruleFile hcwd fun name hname => hnames name (habove'.mem hname),
      length_components_ruleFile hcwd fun name hname => hnames name (habove.mem hname)] at hdepth
    have hlength : above.length = above'.length := by omega
    have hsame : above = above' :=
      (List.prefix_of_prefix_length_le habove habove' hlength.le).eq_of_length hlength
    subst hsame
    have hself : Path.compare ((cwd.under above).child ignoreFileName)
        ((cwd.under above).child ignoreFileName) = .eq := compare_eq_iff.mpr rfl
    rw [hself] at hcompare
    cases hcompare

/-! ## The rule that decides -/

/-- The last element that is looked for lies in the last list that has one. -/
theorem exists_split_of_find?_flatMap {α β : Type} {as : List α} {f : α → List β}
    {wanted : β → Bool} {b : β} (h : (as.flatMap f).reverse.find? wanted = some b) :
    ∃ before a after, as = before ++ a :: after ∧ (f a).reverse.find? wanted = some b ∧
      ∀ later ∈ after, (f later).reverse.find? wanted = none := by
  induction as using List.reverseRecOn with
  | nil => cases h
  | append_singleton as last ih =>
    rw [List.flatMap_append, List.reverse_append, List.find?_append, List.flatMap_singleton] at h
    cases hlast : (f last).reverse.find? wanted with
    | some found =>
      rw [hlast, Option.some_or] at h
      exact ⟨as, last, [], rfl, hlast.trans h, fun _ hlater => absurd hlater List.not_mem_nil⟩
    | none =>
      rw [hlast, Option.none_or] at h
      obtain ⟨before, a, after, rfl, ha, hafter⟩ := ih h
      refine ⟨before, a, after ++ [last], by simp, ha, fun later hlater => ?_⟩
      rcases List.mem_append.mp hlater with hlater | hlater
      · exact hafter later hlater
      · rwa [List.mem_singleton.mp hlater]

/-- The last rule that matches a path itself decides about it. -/
theorem ignores_of_find? {p : IgnorePattern} {path : Path} (hne : names ≠ [])
    (hnames : ∀ name ∈ names, (Component.name name).Proper)
    (hasked : RuleSet.asked? cwd path = some ⟨joinWith [slash] names⟩)
    (h : (rules.patterns.reverse.find? fun p => p.accepts (joinWith [slash] names) isDir) =
      some p) : rules.ignores cwd path isDir = !p.negated := by
  obtain ⟨start, last, rfl⟩ := (List.eq_nil_or_concat names).resolve_left hne
  rw [List.concat_eq_append] at hnames hasked h
  have hverdict : IgnorePattern.verdict? rules.patterns ⟨joinWith [slash] (start ++ [last])⟩ isDir =
      some !p.negated := by
    rw [IgnorePattern.verdict?, h]
    rfl
  rw [RuleSet.ignores_of_asked? hasked, ancestors_joinWith hnames, IgnorePattern.verdictUpward?,
    hverdict]
  rfl

/-- A path that some rule of a run matches itself is decided by the last rule that matches it of
the highest layer that has one. It is ignored if this rule is not negated. Two nested rule files at
one depth both have a rule that matches only if some name of a directory is not read as itself, and
then the later one by its path decides. -/
theorem decided_by_highest_layer [IgnoreEngine] (hproper : t.NamesProper) (hcwd : cwd.IsNormal)
    (hbuild : build t cwd roots patterns = .ok r) :
    ∃ upward loaded, Gathered t cwd roots patterns r upward loaded ∧
      ∀ (names : List RawText) (path : Path) (isDir : Bool), names ≠ [] →
        (∀ name ∈ names, (Component.name name).Proper) →
        (path = cwd.under names ∨ path = ⟨joinWith [slash] names⟩) →
        (∃ p ∈ r.rules.patterns, p.accepts (joinWith [slash] names) isDir = true) →
        ∃ layer ∈ layers t cwd loaded, ∃ p,
          layer.lastMatch? t cwd patterns names isDir = some p ∧
          (∀ other ∈ layers t cwd loaded, other ≠ layer →
            (other.lastMatch? t cwd patterns names isDir).isSome →
              (layer.Outranks other ∨ layer.FollowsAtDepth other) ∧
                (PlainBelow t cwd → layer.Outranks other)) ∧
          (if isDir then r.isDirIgnored path else r.isIgnored path) = !p.negated := by
  obtain ⟨upward, loaded, hgathered⟩ := exists_gathered hbuild
  refine ⟨upward, loaded, hgathered, fun names path isDir hne hnames hpath ⟨p, hp, haccepts⟩ => ?_⟩
  obtain ⟨last, hlast⟩ : ∃ last, (r.rules.patterns.reverse.find? fun p =>
      p.accepts (joinWith [slash] names) isDir) = some last :=
    Option.isSome_iff_exists.mp (List.find?_isSome.mpr ⟨p, List.mem_reverse.mpr hp, haccepts⟩)
  have hdecided : r.rules.ignores cwd path isDir = !last.negated := by
    refine ignores_of_find? hne hnames ?_ hlast
    rcases hpath with rfl | rfl
    · exact RuleSet.asked?_under hcwd hne hnames
    · exact RuleSet.asked?_joinWith cwd hne hnames
  have hordered := layers_pairwise hcwd hgathered
  rw [hgathered.patterns_eq] at hlast
  obtain ⟨before, layer, after, hlayers, hmatch, hafter⟩ := exists_split_of_find?_flatMap hlast
  have hmem : layer ∈ layers t cwd loaded := by simp [hlayers]
  refine ⟨layer, hmem, last, hmatch, fun other hother hneOther hsome => ?_, ?_⟩
  · -- No later layer has a rule that matches, and the earlier ones come below.
    have hbelow : layer.Outranks other ∨ layer.FollowsAtDepth other := by
      rw [hlayers] at hordered hother
      rcases List.mem_append.mp hother with hbefore | hrest
      · exact (List.pairwise_append.mp hordered).2.2 other hbefore layer List.mem_cons_self
      · rcases List.mem_cons.mp hrest with rfl | hlater
        · exact absurd rfl hneOther
        · have hnone : other.lastMatch? t cwd patterns names isDir = none := hafter other hlater
          rw [hnone] at hsome
          cases hsome
    refine ⟨hbelow, fun hplain => hbelow.resolve_right ?_⟩
    exact Layer.not_followsAtDepth hproper hcwd hplain hgathered hne hnames hmem hother
      (Option.isSome_iff_exists.mpr ⟨last, hmatch⟩) hsome
  · have hr : r.cwd = cwd := by rw [hgathered.eq]
    cases isDir with
    | false => rw [if_neg Bool.false_ne_true, isIgnored, hr, hdecided]
    | true => rw [if_pos rfl, isDirIgnored, hr, hdecided]

/-- Rule files above the working directory `/r/w`, in it and at two depths below it, which all speak
of `gen`. -/
def contestedGen : FileTree :=
  ⟨[([.ofString "r"], .dir), ([.ofString "r", ignoreFileName], .file (toUtf8 "gen\n".toList) false),
    ([.ofString "r", .ofString "w"], .dir),
    ([.ofString "r", .ofString "w", ignoreFileName], .file (toUtf8 "!gen\n".toList) false),
    ([.ofString "r", .ofString "w", .ofString "pkg"], .dir),
    ([.ofString "r", .ofString "w", .ofString "pkg", ignoreFileName],
      .file (toUtf8 "gen\n".toList) false),
    ([.ofString "r", .ofString "w", .ofString "pkg", .ofString "sub"], .dir),
    ([.ofString "r", .ofString "w", .ofString "pkg", .ofString "sub", ignoreFileName],
      .file (toUtf8 "!gen\n".toList) false)]⟩

/-- The layers of a run with the pattern `gen/` in `contestedGen`. -/
def contestedLayers : List Layer :=
  [.packages, .upward (.ofString "/r/.gitignore"), .upward (.ofString "/r/w/.gitignore"),
    .nested (.ofString "/r/w/pkg/.gitignore"), .nested (.ofString "/r/w/pkg/sub/.gitignore"),
    .caller]

/-- The names that lead from `/r/w` to a `gen` below all of the rule files. -/
def contestedNames : List RawText :=
  [.ofString "pkg", .ofString "sub", .ofString "gen"]

/-- All rule files have a rule for `pkg/sub/gen`. The caller has one if it is a directory, and this
decides then; otherwise the deepest of the files does. -/
theorem decided_by_highest_layer_contestedGen :
    ∃ r upward loaded,
      build contestedGen (.ofString "/r/w") [.ofString "."] ["gen/".toList] = .ok r ∧
      Gathered contestedGen (.ofString "/r/w") [.ofString "."] ["gen/".toList] r upward loaded ∧
      layers contestedGen (.ofString "/r/w") loaded = contestedLayers ∧
      (∀ isDir, ∀ layer ∈ contestedLayers.dropLast.tail, (layer.lastMatch? contestedGen
        (.ofString "/r/w") ["gen/".toList] contestedNames isDir).isSome) ∧
      (∃ p, Layer.caller.lastMatch? contestedGen (.ofString "/r/w") ["gen/".toList] contestedNames
          true = some p ∧ r.isDirIgnored (.ofString "/r/w/pkg/sub/gen") = !p.negated) ∧
      ∃ p, (Layer.nested (.ofString "/r/w/pkg/sub/.gitignore")).lastMatch? contestedGen
          (.ofString "/r/w") ["gen/".toList] contestedNames false = some p ∧
        r.isIgnored (.ofString "/r/w/pkg/sub/gen") = !p.negated := by
  obtain ⟨r, hr, hmatch⟩ : ∃ r, build contestedGen (.ofString "/r/w") [.ofString "."]
      ["gen/".toList] = .ok r ∧ ([false, true].all fun isDir => r.rules.patterns.any fun p =>
        p.accepts (joinWith [slash] contestedNames) isDir) = true :=
    exists_ok_of_map (by decide +kernel)
  have hproper : contestedGen.NamesProper := by decide +kernel
  have hlinks : contestedGen.LinkFree := by
    unfold FileTree.LinkFree contestedGen
    simp
  have hcwd : (Path.ofString "/r/w").IsNormal := by decide +kernel
  have hplain : PlainBelow contestedGen (.ofString "/r/w") :=
    .of_linkFree hlinks hcwd (by decide +kernel)
  have hnames : ∀ name ∈ contestedNames, (Component.name name).Proper := by decide +kernel
  have hpath : Path.ofString "/r/w/pkg/sub/gen" = (Path.ofString "/r/w").under contestedNames := by
    decide +kernel
  obtain ⟨upward, loaded, hgathered, hdecided⟩ := decided_by_highest_layer hproper hcwd hr
  obtain ⟨upward', hupward', hloaded⟩ : ∃ upward', upwardRules contestedGen (.ofString "/r/w") =
      .ok upward' ∧ loadedFiles contestedGen (.ofString "/r/w") upward'
        (nestedFiles contestedGen (.ofString "/r/w") upward' [.ofString "."]) =
          [.ofString "/r/w/pkg/.gitignore", .ofString "/r/w/pkg/sub/.gitignore"] :=
    exists_ok_of_map (by decide +kernel)
  obtain rfl := Except.ok.inj (hgathered.upward_eq.symm.trans hupward')
  rw [← hgathered.loaded_eq] at hloaded
  have hlayers : layers contestedGen (.ofString "/r/w") loaded = contestedLayers := by
    have hupwardFiles : upwardFiles contestedGen (.ofString "/r/w") =
        [.ofString "/r/.gitignore", .ofString "/r/w/.gitignore"] := by decide +kernel
    rw [layers, hupwardFiles, hloaded]
    rfl
  have hmatches : ∀ isDir, ∀ layer ∈ contestedLayers.dropLast.tail, (layer.lastMatch? contestedGen
      (.ofString "/r/w") ["gen/".toList] contestedNames isDir).isSome := by
    decide +kernel
  have hsome : ∀ isDir, ∃ p ∈ r.rules.patterns,
      p.accepts (joinWith [slash] contestedNames) isDir = true := by
    simpa [and_comm] using hmatch
  refine ⟨r, upward, loaded, hr, hgathered, hlayers, hmatches, ?_, ?_⟩
  · obtain ⟨layer, hlayer, p, hlast, hranks, hignored⟩ :=
      hdecided contestedNames _ true (by decide) hnames (.inl hpath) (hsome true)
    rw [hlayers] at hlayer hranks
    by_cases hcaller : layer = .caller
    · subst hcaller
      exact ⟨p, hlast, hignored⟩
    · have hrank := (hranks .caller (by simp [contestedLayers]) (Ne.symm hcaller)
        (by decide +kernel)).2 hplain
      cases layer with
      | packages | upward | nested => exact hrank.elim
      | caller => exact absurd rfl hcaller
  · obtain ⟨layer, hlayer, p, hlast, hranks, hignored⟩ :=
      hdecided contestedNames _ false (by decide) hnames (.inl hpath) (hsome false)
    rw [hlayers] at hlayer hranks
    by_cases hdeepest : layer = .nested (.ofString "/r/w/pkg/sub/.gitignore")
    · subst hdeepest
      exact ⟨p, hlast, hignored⟩
    · have hrank := (hranks (.nested (.ofString "/r/w/pkg/sub/.gitignore"))
        (by simp [contestedLayers]) (Ne.symm hdeepest)
        (hmatches false _ (by simp [contestedLayers]))).2 hplain
      simp only [contestedLayers, List.mem_cons, List.not_mem_nil, or_false] at hlayer
      rcases hlayer with rfl | rfl | rfl | rfl | rfl | rfl
      · exact hrank.elim
      · exact hrank.elim
      · exact hrank.elim
      · have hdepth : (Path.ofString "/r/w/pkg/sub/.gitignore").components.length <
            (Path.ofString "/r/w/pkg/.gitignore").components.length := hrank
        exact absurd hdepth (by decide +kernel)
      · exact absurd rfl hdeepest
      · have hnone : Layer.caller.lastMatch? contestedGen (.ofString "/r/w") ["gen/".toList]
            contestedNames false = none := by decide +kernel
        rw [hnone] at hlast
        cases hlast

end Typesweep.IgnoreResolver
