import Typesweep.Proofs.Discovery
import Typesweep.Proofs.Ignore.Nested
import Typesweep.Proofs.Ignore.Spelling

/-!
# One more pattern of the caller

The patterns of the caller come last, so a further one is the last rule of a run. A path is decided
at the nearest level, itself or a directory above it, at which any rule matches, so the new rule can
move the decision to another level. Wherever it decides, it says one and the same thing: ignored, or
not ignored if it starts with `!`. So the answer for a path stays as it was or turns in that
direction, and with the answers for directories the search for configurations enters fewer or more
of them.

This holds when a matcher can be made of the rules with the new one among them. A pattern that can
be read is added whether or not that is so, and if it is not, nothing is gathered at all, even where
the pattern matches nothing (`build_refuses_nestedBraces`).

* `IgnorePattern.verdictUpward?_append`: rules of one kind at the end of a list.
* `IgnorePattern.negated_of_ofLine`: which lines take back what others ignore.
* `IsSilentAbout`: lines that say nothing about a path.
* `build_concat_turnsOneWay`: the main result.
-/

namespace Typesweep

open Text

variable {t : FileTree} {cwd path : Path} {roots : List Path} {patterns : List Text} {line : Text}
  {isDir : Bool} {r r' : IgnoreResolver}

/-! ## Rules of one kind at the end -/

namespace IgnorePattern

variable {before more : List IgnorePattern} {p : IgnorePattern} {paths : List Path} {b : Bool}

theorem verdict?_of_negated (h : ∀ p ∈ more, p.negated = b) :
    verdict? more path isDir = none ∨ verdict? more path isDir = some !b := by
  unfold verdict?
  cases hfound : more.reverse.find? fun rule => rule.accepts path.raw isDir with
  | none => exact .inl rfl
  | some p =>
    rw [Option.map_some, h p (List.mem_reverse.mp (List.mem_of_find?_eq_some hfound))]
    exact .inr rfl

/-- Rules of one kind that are put at the end leave the answer as it was, or give theirs. -/
theorem verdictUpward?_append (h : ∀ p ∈ more, p.negated = b) (before : List IgnorePattern)
    (isDir : Bool) (paths : List Path) :
    verdictUpward? (before ++ more) isDir paths = verdictUpward? before isDir paths ∨
      verdictUpward? (before ++ more) isDir paths = some !b := by
  induction paths generalizing isDir with
  | nil => exact .inl rfl
  | cons path above ih =>
    rw [verdictUpward?, verdictUpward?, verdict?_append]
    rcases verdict?_of_negated h with hnone | hsome
    · rw [hnone, Option.none_or]
      -- The new rules do not decide at this level, but they can above if no old one decides here.
      cases verdict? before path isDir with
      | some v => exact .inl rfl
      | none => exact ih true
    · rw [hsome]
      exact .inr rfl

/-- Rules that match none of the paths make no difference. -/
theorem verdictUpward?_append_of_not_reaches (h : ∀ p ∈ more, ¬ p.Reaches isDir paths) :
    verdictUpward? (before ++ more) isDir paths = verdictUpward? before isDir paths := by
  induction paths generalizing isDir with
  | nil => rfl
  | cons path above ih =>
    have hhere : verdict? more path isDir = none :=
      verdict?_eq_none_iff.mpr fun p hp haccepts => h p hp (.inl haccepts)
    rw [verdictUpward?, verdictUpward?, verdict?_append, hhere, Option.none_or,
      ih fun p hp hreaches => h p hp (.inr hreaches)]

/-! ## Lines that take back -/

theorem splitStart_negated (l : Text) : (splitStart l).1 = decide (l.head? = some '!') := by
  have hmark : decide ((splitNegation l).1 ≠ []) = decide (l.head? = some '!') := by
    unfold splitNegation
    split
    · rfl
    · next hne =>
      have hhead : l.head? ≠ some '!' := by
        intro heq
        obtain ⟨rest, rfl⟩ := List.head?_eq_some_iff.mp heq
        exact hne rest rfl
      rw [decide_eq_false hhead]
      rfl
  rw [← hmark]
  unfold splitStart
  split
  · rfl
  · rfl
  · dsimp only
    split <;> rfl

/-- A rule is negated exactly if its line starts with `!`. -/
theorem negated_of_ofLine (h : ofLine line = .rule p) :
    p.negated = decide (line.head? = some '!') := by
  unfold ofLine at h
  dsimp only at h
  split at h
  · cases h
  · split at h
    · cases h
    · next hne =>
      obtain ⟨rest, hrest⟩ := prefix_trimLine line
      have hhead : (trimLine line).head? = line.head? :=
        (List.head?_append_of_ne_nil _ hne).symm.trans (congrArg List.head? hrest)
      split at h
      · cases h
      · cases h
        exact (splitStart_negated _).trans (by rw [hhead])

end IgnorePattern

/-- A line of a rule file that carries a rule starts with the same character without the line ending
that it may have. -/
theorem head?_dropCarriageReturns (h : isBlankOrComment (dropCarriageReturns line) = false) :
    (dropCarriageReturns line).head? = line.head? := by
  have hne : dropCarriageReturns line ≠ [] := by
    intro hnil
    rw [hnil] at h
    cases h
  obtain ⟨rest, hrest⟩ := prefix_trimEnd (· = '\r') line
  exact (List.head?_append_of_ne_nil _ hne).symm.trans (congrArg List.head? hrest)

theorem ofLine_of_mem_linePatterns {p : IgnorePattern} {scope : Path}
    (h : p ∈ linePatterns line scope) :
    isBlankOrComment (dropCarriageReturns line) = false ∧
      IgnorePattern.ofLine (dropCarriageReturns line) = .rule p := by
  obtain ⟨rule, hrule, hline⟩ := mem_linePatterns_iff.mp h
  rw [IgnoreRule.line_of_parse? hrule] at hline
  refine ⟨Bool.eq_false_iff.mpr fun hblank => ?_, hline⟩
  rw [IgnoreRule.parse?, hblank, if_pos rfl] at hrule
  cases hrule

theorem negated_of_mem_linePatterns {p : IgnorePattern} {scope : Path}
    (h : p ∈ linePatterns line scope) : p.negated = decide (line.head? = some '!') := by
  obtain ⟨hblank, hrule⟩ := ofLine_of_mem_linePatterns h
  rw [IgnorePattern.negated_of_ofLine hrule, head?_dropCarriageReturns hblank]

/-! ## The answers with one line more -/

/-- The line of a rule says nothing about a path: it is blank or a comment, it breaks a rule of
patterns, or its pattern matches neither the path nor a directory above it. -/
def IsSilentAbout (line : Text) (cwd path : Path) (isDir : Bool) : Prop :=
  isBlankOrComment (dropCarriageReturns line) = true ∨
    IgnorePattern.ofLine (dropCarriageReturns line) = .invalid ∨
      ∀ p, IgnorePattern.ofLine (dropCarriageReturns line) = .rule p → ¬ p.Touches cwd path isDir

theorem IsSilentAbout.not_touches {p : IgnorePattern} {scope : Path}
    (h : IsSilentAbout line cwd path isDir) (hp : p ∈ linePatterns line scope) :
    ¬ p.Touches cwd path isDir := by
  obtain ⟨hblank, hrule⟩ := ofLine_of_mem_linePatterns hp
  rcases h with hblank' | hinvalid | hmisses
  · rw [hblank'] at hblank
    cases hblank
  · rw [hinvalid] at hrule
    cases hrule
  · exact hmisses p hrule

namespace RuleSet

/-- One line more leaves the answer for a path, or gives the one that it has for all paths. -/
theorem ignores_addLine (rules : RuleSet) (line : Text) (scope cwd path : Path) (isDir : Bool) :
    (rules.addLine line scope).ignores cwd path isDir = rules.ignores cwd path isDir ∨
      (rules.addLine line scope).ignores cwd path isDir = !decide (line.head? = some '!') := by
  cases hasked : asked? cwd path with
  | none =>
    rw [ignores_of_asked?_eq_none hasked, ignores_of_asked?_eq_none hasked]
    exact .inl rfl
  | some q =>
    have hnegated : ∀ p ∈ linePatterns line scope, p.negated = decide (line.head? = some '!') :=
      fun p hp => negated_of_mem_linePatterns hp
    rw [ignores_of_asked? hasked, ignores_of_asked? hasked, patterns_addLine]
    rcases IgnorePattern.verdictUpward?_append hnegated rules.patterns isDir q.ancestors with
      hsame | hnew
    · exact .inl (by rw [hsame])
    · exact .inr (by rw [hnew, Option.getD_some])

theorem ignores_addLine_of_silent (rules : RuleSet) (scope : Path)
    (h : IsSilentAbout line cwd path isDir) :
    (rules.addLine line scope).ignores cwd path isDir = rules.ignores cwd path isDir := by
  cases hasked : asked? cwd path with
  | none => rw [ignores_of_asked?_eq_none hasked, ignores_of_asked?_eq_none hasked]
  | some q =>
    have hmisses : ∀ p ∈ linePatterns line scope, ¬ p.Reaches isDir q.ancestors :=
      fun p hp hreaches => h.not_touches hp ⟨q, hasked, hreaches⟩
    rw [ignores_of_asked? hasked, ignores_of_asked? hasked, patterns_addLine,
      IgnorePattern.verdictUpward?_append_of_not_reaches hmisses]

end RuleSet

/-! ## The rules of a run with one pattern more -/

namespace IgnoreResolver

/-- Whatever `r` ignores, `r'` ignores too. -/
structure IgnoresAtMost (r r' : IgnoreResolver) : Prop where
  files : ∀ path, r.isIgnored path = true → r'.isIgnored path = true
  dirs : ∀ path, r.isDirIgnored path = true → r'.isDirIgnored path = true

theorem IgnoresAtMost.configsBelow_sublist (h : r.IgnoresAtMost r') (root : Path) :
    (t.configsBelow r' root).Sublist (t.configsBelow r root) :=
  FileTree.configsBelow_sublist (fun dir _ => h.dirs dir) fun file _ => h.files file.normalize

/-- The rules with one line more, read in the working directory. -/
def withLine (r : IgnoreResolver) (line : Text) : IgnoreResolver :=
  ⟨r.cwd, r.rules.addLine line r.cwd⟩

theorem build_concat [IgnoreEngine] (h : build t cwd roots patterns = .ok r) (line : Text) :
    r.cwd = cwd ∧ IgnoreEngine.refusal? r.rules.patterns = none ∧
      build t cwd roots (patterns ++ [line]) = (r.withLine line).rules.built.map (mk cwd) := by
  obtain ⟨upward, nested, hupward, hupwardBuilt, hnested, hbuilt, rfl⟩ := build_eq_ok_iff.mp h
  have hlast : nested.addLines (patterns ++ [line]) cwd =
      (nested.addLines patterns cwd).addLine line cwd := List.foldl_append
  refine ⟨rfl, hbuilt, ?_⟩
  rw [build_eq hupward hupwardBuilt hnested, hlast]
  rfl

/-- A line that carries no rule is not refused: no matcher is made of anything new. -/
theorem exists_linePatterns_eq_of_refused [IgnoreEngine] {reason : Text}
    (hbefore : IgnoreEngine.refusal? r.rules.patterns = none)
    (hafter : IgnoreEngine.refusal? (r.withLine line).rules.patterns = some reason) :
    ∃ p, linePatterns line r.cwd = [p] := by
  rcases linePatterns_eq_nil_or line r.cwd with hnil | hone
  · have hsame : (r.withLine line).rules.patterns = r.rules.patterns := by
      rw [withLine, RuleSet.patterns_addLine, hnil, List.append_nil]
    rw [hsame, hbefore] at hafter
    cases hafter
  · exact hone

theorem ignoresAtMost_withLine (r : IgnoreResolver) (h : line.head? ≠ some '!') :
    r.IgnoresAtMost (r.withLine line) := by
  have hmore : ∀ path isDir, r.rules.ignores r.cwd path isDir = true →
      (r.rules.addLine line r.cwd).ignores r.cwd path isDir = true := by
    intro path isDir hignored
    rcases r.rules.ignores_addLine line r.cwd r.cwd path isDir with hsame | hnew
    · rw [hsame, hignored]
    · rw [hnew, decide_eq_false h, Bool.not_false]
  exact ⟨fun path => hmore path false, fun path => hmore path true⟩

theorem withLine_ignoresAtMost (r : IgnoreResolver) (h : line.head? = some '!') :
    (r.withLine line).IgnoresAtMost r := by
  have hless : ∀ path isDir, (r.rules.addLine line r.cwd).ignores r.cwd path isDir = true →
      r.rules.ignores r.cwd path isDir = true := by
    intro path isDir hignored
    rcases r.rules.ignores_addLine line r.cwd r.cwd path isDir with hsame | hnew
    · rw [← hsame, hignored]
    · rw [hnew, decide_eq_true h] at hignored
      cases hignored
  exact ⟨fun path => hless path false, fun path => hless path true⟩

/-- What one pattern more makes of the rules `r` and of the configurations `found` by them. -/
structure TurnsOneWay (t : FileTree) (line : Text) (r r' : IgnoreResolver)
    (found found' : List Path) : Prop where
  /-- A pattern that is not negated ignores paths and takes configurations away. -/
  of_plain : line.head? ≠ some '!' → r.IgnoresAtMost r' ∧ found'.Sublist found
  /-- A negated pattern takes paths back and adds configurations. -/
  of_negated : line.head? = some '!' → r'.IgnoresAtMost r ∧ found.Sublist found'
  /-- The answer for a path that the pattern says nothing about stays as it was. -/
  of_silent : ∀ path,
    (IsSilentAbout line r.cwd path false → r'.isIgnored path = r.isIgnored path) ∧
      (IsSilentAbout line r.cwd path true → r'.isDirIgnored path = r.isDirIgnored path)
  /-- A pattern that says nothing about any path leaves the configurations as they were. -/
  found_of_silent : (∀ path isDir, IsSilentAbout line r.cwd path isDir) → found' = found
  /-- It is enough that it says nothing about the files and directories of the tree. -/
  found_of_unmatched : t.NamesProper →
    (∀ path, t.isFile path = true → IsSilentAbout line r.cwd path false) →
      (∀ path, t.isDir path = true → IsSilentAbout line r.cwd path true) → found' = found

theorem configsBelow_eq_of_silent {root : Path}
    (hdirs : ∀ dir, t.isDir dir = true → r'.isDirIgnored dir = r.isDirIgnored dir)
    (hfiles : ∀ enter, ∀ file ∈ t.filesBelow enter root,
      r'.isIgnored file.normalize = r.isIgnored file.normalize) :
    t.configsBelow r' root = t.configsBelow r root := by
  refine List.Sublist.antisymm ?_ ?_
  · exact FileTree.configsBelow_sublist (fun dir hdir h => (hdirs dir hdir).trans h)
      fun file hfile h => (hfiles _ file hfile).trans h
  · exact FileTree.configsBelow_sublist (fun dir hdir h => (hdirs dir hdir).symm.trans h)
      fun file hfile h => (hfiles _ file hfile).symm.trans h

/-- The rules with one pattern more can be gathered unless the engine refuses them, and it does not
if the line carries no rule. If the pattern is not negated the rules ignore more and fewer
configurations are found, and if it is negated the other way round. If it says nothing about any
path, nothing changes. -/
theorem build_concat_turnsOneWay [IgnoreEngine]
    (hroots : ∀ root ∈ roots, t.isDir (cwd.absolutize root) = true)
    (hbuild : build t cwd roots patterns = .ok r) (line : Text) :
    (∀ reason, IgnoreEngine.refusal? (r.withLine line).rules.patterns = some reason →
      build t cwd roots (patterns ++ [line]) = .error (.unbuildable reason) ∧
        ∃ p, linePatterns line cwd = [p]) ∧
    (IgnoreEngine.refusal? (r.withLine line).rules.patterns = none →
      ∃ r' found found', build t cwd roots (patterns ++ [line]) = .ok r' ∧
        t.discover cwd r roots = .ok found ∧ t.discover cwd r' roots = .ok found' ∧
          TurnsOneWay t line r r' found found') := by
  obtain ⟨rfl, hbefore, hbuild'⟩ := build_concat hbuild line
  refine ⟨fun reason hrefused => ?_, fun haccepted => ?_⟩
  · rw [hbuild', RuleSet.built, hrefused]
    exact ⟨rfl, exists_linePatterns_eq_of_refused hbefore hrefused⟩
  rw [RuleSet.built_eq_ok_iff.mpr ⟨haccepted, rfl⟩] at hbuild'
  have hall : ∀ {s s' : IgnoreResolver}, s.IgnoresAtMost s' →
      (roots.flatMap fun root => t.configsBelow s' (r.cwd.absolutize root)).Sublist
        (roots.flatMap fun root => t.configsBelow s (r.cwd.absolutize root)) := fun hmost =>
    List.Sublist.flatMap_right _ fun root _ => hmost.configsBelow_sublist _
  have hsilent : ∀ path isDir, IsSilentAbout line r.cwd path isDir →
      (r.withLine line).rules.ignores r.cwd path isDir = r.rules.ignores r.cwd path isDir :=
    fun path isDir h => r.rules.ignores_addLine_of_silent r.cwd h
  refine ⟨r.withLine line, _, _, hbuild', FileTree.discover_eq hroots,
    FileTree.discover_eq hroots, ?_, ?_, ?_, ?_, ?_⟩
  · intro hplain
    exact ⟨r.ignoresAtMost_withLine hplain, hall (r.ignoresAtMost_withLine hplain)⟩
  · intro hnegated
    exact ⟨r.withLine_ignoresAtMost hnegated, hall (r.withLine_ignoresAtMost hnegated)⟩
  · exact fun path => ⟨hsilent path false, hsilent path true⟩
  · intro hnothing
    exact List.flatMap_congr fun root _ => configsBelow_eq_of_silent
      (fun dir _ => hsilent dir true (hnothing dir true))
      fun _ file _ => hsilent _ false (hnothing _ false)
  · intro hnames hfiles hdirs
    refine List.flatMap_congr fun root hroot => configsBelow_eq_of_silent
      (fun dir hdir => hsilent dir true (hdirs dir hdir)) fun enter file hfile => ?_
    -- What the search comes to is a file of the tree, and its path is normal.
    obtain ⟨place, hfind, -⟩ := FileTree.isDir_iff.mp (hroots root hroot)
    have hnormal := FileTree.isNormal_of_mem_filesBelow hnames
      (Path.isNormal_absolutize (FileTree.isAbsolute_of_find hfind)) hfile
    obtain ⟨found, content, executable, hfound, hentry⟩ :=
      FileTree.exists_find_of_mem_filesBelow hfile
    rw [hnormal.2]
    exact hsilent file false
      (hfiles file (FileTree.isFile_iff.mpr ⟨found, content, executable, hfound, hentry⟩))

theorem build_concat_turnsOneWay_ignoredDist :
    (∀ root ∈ [Path.ofString "."],
      FileTree.ignoredDist.isDir ((Path.ofString "/w").absolutize root) = true) ∧
      ∃ r r' found found',
        build FileTree.ignoredDist (.ofString "/w") [.ofString "."] ["dist".toList] = .ok r ∧
        build FileTree.ignoredDist (.ofString "/w") [.ofString "."]
          ["dist".toList, "!dist".toList] = .ok r' ∧
        FileTree.ignoredDist.discover (.ofString "/w") r [.ofString "."] = .ok found ∧
        FileTree.ignoredDist.discover (.ofString "/w") r' [.ofString "."] = .ok found' ∧
        TurnsOneWay FileTree.ignoredDist "!dist".toList r r' found found' := by
  obtain ⟨r, hr, haccepted⟩ : ∃ r, build FileTree.ignoredDist (.ofString "/w") [.ofString "."]
      ["dist".toList] = .ok r ∧
        IgnoreEngine.refusal? (r.withLine "!dist".toList).rules.patterns = none :=
    exists_ok_of_map (by decide +kernel)
  have hroots : ∀ root ∈ [Path.ofString "."],
      FileTree.ignoredDist.isDir ((Path.ofString "/w").absolutize root) = true := by
    decide +kernel
  obtain ⟨r', found, found', hr', hfound, hfound', hturns⟩ :=
    (build_concat_turnsOneWay hroots hr "!dist".toList).2 haccepted
  exact ⟨hroots, r, r', found, found', hr, hr', hfound, hfound', hturns⟩

theorem eq_error_of_map {ε α : Type} {x : Except ε α} {e : ε} (h : x.map (fun _ => ()) = .error e) :
    x = .error e := by
  cases x with
  | error e' => rw [Except.error.inj h]
  | ok a => cases h

/-- A pattern for the name `a`, in more braces than an engine takes. -/
def nestedBraces : Text :=
  List.replicate 300 '\x7b' ++ 'a' :: List.replicate 300 '\x7d'

/-- A pattern that nothing in the tree matches, and that is not negated, can end the gathering. -/
theorem build_refuses_nestedBraces :
    (∀ root ∈ [Path.ofString "."],
      FileTree.ignoredDist.isDir ((Path.ofString "/w").absolutize root) = true) ∧
    (∃ r, build FileTree.ignoredDist (.ofString "/w") [.ofString "."] [] = .ok r) ∧
    nestedBraces.head? ≠ some '!' ∧
    (∀ entry ∈ FileTree.ignoredDist.entries, ∀ isDir,
      (RuleSet.addLine [] nestedBraces (.ofString "/w")).ignores (.ofString "/w")
        (FileTree.pathTo entry.1) isDir = false) ∧
    build FileTree.ignoredDist (.ofString "/w") [.ofString "."] [nestedBraces] =
      .error (.unbuildable "error parsing pattern".toList) := by
  obtain ⟨r, hr, -⟩ : ∃ r, build FileTree.ignoredDist (.ofString "/w") [.ofString "."] [] = .ok r ∧
      r.cwd = .ofString "/w" :=
    exists_ok_of_map (by decide +kernel)
  refine ⟨by decide +kernel, ⟨r, hr⟩, by decide, by decide +kernel, ?_⟩
  exact eq_error_of_map (by decide +kernel)

-- The pattern that is taken back had decided for the directory; now the search enters it.
example :
    ((build FileTree.ignoredDist (.ofString "/w") [.ofString "."] ["dist".toList]).toOption.map
      fun r => (FileTree.ignoredDist.configsBelow r (.ofString "/w")).length) = some 2 ∧
    ((build FileTree.ignoredDist (.ofString "/w") [.ofString "."]
      ["dist".toList, "!dist".toList]).toOption.map
        fun r => (FileTree.ignoredDist.configsBelow r (.ofString "/w")).length) = some 3 := by
  decide +kernel

end IgnoreResolver

end Typesweep
