import Typesweep.Ignore.Resolver
import Typesweep.Proofs.Ignore.Scoped
import Typesweep.Proofs.Path.Relative

/-!
# Rules that differ only below a directory

Two sets of rules that say the same about every path that does not start with a directory and a
slash (`AgreeOutside`) ignore the same paths that do not lie below this directory. They go on to
agree when the same lines are added to both, and when lines that stay below the directory are added
to one of them.

Paths that start with `..` are left out too: no path with a `..` is ever ignored.

* `AgreeOutside.addLines`, `AgreeOutside.addLines_left`: adding lines.
* `AgreeOutside.ignores_eq`: asking for a path.
-/

namespace Typesweep

open Text
open RawText (slash dot)

variable {lead t : RawText} {lines : List Text} {scope scope' : Path} {rules rules' : RuleSet}
  {isDir : Bool}

/-! ## The patterns of lines -/

/-- The pattern of a line, if it carries a valid one. -/
def linePatterns (line : Text) (scope : Path) : List IgnorePattern :=
  match IgnoreRule.parse? line scope with
  | none => []
  | some rule =>
    match IgnorePattern.ofLine rule.line with
    | .rule pattern => [pattern]
    | _ => []

theorem mem_linePatterns_iff {line : Text} {pattern : IgnorePattern} :
    pattern ∈ linePatterns line scope ↔
      ∃ rule, IgnoreRule.parse? line scope = some rule ∧
        IgnorePattern.ofLine rule.line = .rule pattern := by
  unfold linePatterns
  cases IgnoreRule.parse? line scope with
  | none => simp
  | some rule =>
    cases hline : IgnorePattern.ofLine rule.line with
    | blank => simp [hline]
    | invalid => simp [hline]
    | rule pattern' => simp [hline, eq_comm]

theorem linePatterns_eq_nil_or (line : Text) (scope : Path) :
    linePatterns line scope = [] ∨ ∃ p, linePatterns line scope = [p] := by
  unfold linePatterns
  split
  · exact .inl rfl
  · split
    · next p _ => exact .inr ⟨p, rfl⟩
    · exact .inl rfl

theorem StaysBelow.exists_below {line : Text} {pattern : IgnorePattern} {u : RawText}
    (h : StaysBelow lead line) (hpattern : pattern ∈ linePatterns line scope)
    (haccepts : pattern.accepts u isDir = true) :
    ∃ below, u = lead ++ slash :: below := by
  obtain ⟨rule, hrule, hline⟩ := mem_linePatterns_iff.mp hpattern
  exact h scope rule pattern hrule hline u isDir haccepts

theorem RuleSet.patterns_addLine (rules : RuleSet) (line : Text) (scope : Path) :
    (rules.addLine line scope).patterns = rules.patterns ++ linePatterns line scope := by
  unfold addLine linePatterns
  cases IgnoreRule.parse? line scope with
  | none => exact (List.append_nil _).symm
  | some rule =>
    dsimp only
    cases IgnorePattern.ofLine rule.line with
    | blank => simp [patterns]
    | invalid => simp
    | rule pattern => simp [patterns]

theorem RuleSet.patterns_addLines (rules : RuleSet) (lines : List Text) (scope : Path) :
    (rules.addLines lines scope).patterns =
      rules.patterns ++ lines.flatMap fun line => linePatterns line scope := by
  induction lines generalizing rules with
  | nil => exact (List.append_nil _).symm
  | cons line lines ih =>
    rw [List.flatMap_cons, ← List.append_assoc, ← patterns_addLine]
    exact ih _

/-- A matcher of rules is asked like the rules. -/
theorem RuleSet.built_eq_ok_iff [IgnoreEngine] {built : RuleSet} :
    rules.built = .ok built ↔ IgnoreEngine.refusal? rules.patterns = none ∧ built = rules := by
  unfold RuleSet.built
  split
  · next reason hrefusal => simp [hrefusal]
  · next hrefusal => simp [hrefusal, eq_comm]

theorem IgnorePattern.verdict?_append (patterns more : List IgnorePattern) (path : Path)
    (isDir : Bool) :
    verdict? (patterns ++ more) path isDir =
      (verdict? more path isDir).or (verdict? patterns path isDir) := by
  unfold verdict?
  rw [List.reverse_append, List.find?_append, Option.map_or]

theorem IgnorePattern.verdict?_eq_none_iff {patterns : List IgnorePattern} {path : Path} :
    verdict? patterns path isDir = none ↔
      ∀ p ∈ patterns, ¬ p.accepts path.raw isDir = true := by
  rw [verdict?, Option.map_eq_none_iff, List.find?_eq_none]
  simp only [List.mem_reverse]

/-! ## Agreement -/

/-- A path that neither starts with the directory `lead` nor with `..`. -/
def IsOutside (lead t : RawText) : Prop :=
  (∀ below, t ≠ lead ++ slash :: below) ∧ ∀ below, t ≠ [dot, dot] ++ slash :: below

/-- The rules say the same about every path itself that is outside of `lead`. -/
def AgreeOutside (lead : RawText) (rules rules' : RuleSet) : Prop :=
  ∀ t isDir, IsOutside lead t →
    IgnorePattern.verdict? rules.patterns ⟨t⟩ isDir =
      IgnorePattern.verdict? rules'.patterns ⟨t⟩ isDir

theorem AgreeOutside.refl (lead : RawText) (rules : RuleSet) : AgreeOutside lead rules rules :=
  fun _ _ _ => rfl

theorem AgreeOutside.symm (h : AgreeOutside lead rules rules') : AgreeOutside lead rules' rules :=
  fun t isDir ht => (h t isDir ht).symm

theorem AgreeOutside.addLines (h : AgreeOutside lead rules rules') (lines : List Text)
    (scope : Path) :
    AgreeOutside lead (rules.addLines lines scope) (rules'.addLines lines scope) := by
  intro t isDir ht
  rw [RuleSet.patterns_addLines, RuleSet.patterns_addLines, IgnorePattern.verdict?_append,
    IgnorePattern.verdict?_append, h t isDir ht]

theorem AgreeOutside.addLines_left (h : AgreeOutside lead rules rules')
    (hlines : ∀ line ∈ lines, StaysBelow lead line ∨ StaysBelow [dot, dot] line) :
    AgreeOutside lead (rules.addLines lines scope) rules' := by
  intro t isDir ht
  have hnone : IgnorePattern.verdict? (lines.flatMap fun line => linePatterns line scope) ⟨t⟩
      isDir = none := by
    refine IgnorePattern.verdict?_eq_none_iff.mpr fun pattern hpattern haccepts => ?_
    obtain ⟨line, hline, hmem⟩ := List.mem_flatMap.mp hpattern
    rcases hlines line hline with hstays | hstays
    · obtain ⟨below, hbelow⟩ := hstays.exists_below hmem haccepts
      exact ht.1 below hbelow
    · obtain ⟨below, hbelow⟩ := hstays.exists_below hmem haccepts
      exact ht.2 below hbelow
  rw [RuleSet.patterns_addLines, IgnorePattern.verdict?_append, hnone, Option.none_or, h t isDir ht]

theorem AgreeOutside.verdictUpward?_eq (h : AgreeOutside lead rules rules') {paths : List Path}
    (hpaths : ∀ path ∈ paths, IsOutside lead path.raw) (isDir : Bool) :
    IgnorePattern.verdictUpward? rules.patterns isDir paths =
      IgnorePattern.verdictUpward? rules'.patterns isDir paths := by
  induction paths generalizing isDir with
  | nil => rfl
  | cons path paths ih =>
    rw [List.forall_mem_cons] at hpaths
    rw [IgnorePattern.verdictUpward?, IgnorePattern.verdictUpward?, h _ isDir hpaths.1,
      ih hpaths.2 true]

/-! ## Asking for a path -/

section Query

open Component Typesweep.Path

variable {cwd dir p q r s a : Path} {names : List RawText}

theorem mem_components_of_mem_below (hr : r.isAbsolute = false) {c : Component}
    (hc : c ∈ below r.raw) : c ∈ r.components := by
  obtain ⟨first, rest, hsegments⟩ := List.exists_cons_of_ne_nil (splitOn_ne_nil slash r.raw)
  have hsplit : r.segments = first :: rest := hsegments
  rw [below, hsegments, List.filterMap_cons] at hc
  rw [components, hsplit]
  dsimp only
  rw [leading?, hr, if_neg Bool.false_ne_true]
  by_cases hhere : first = [dot]
  · subst hhere
    exact List.mem_append_right _ hc
  · rw [if_neg hhere]
    cases hfirst : ofSegment? first with
    | none =>
      rw [hfirst] at hc
      exact hc
    | some c' =>
      rw [hfirst] at hc
      exact hc

/-- What a path `p` is asked by, as `r` from the directory `cwd`, does not start with a
directory that it does not lie below. Only the `./` at the start of `r` may be missing in `s`. -/
theorem isOutside_of_mem_ancestors (hdir : dir.IsNormal)
    (hnames : ∀ name ∈ names, (Component.name name).Proper)
    (hcomponents : dir.components = cwd.components ++ names.map Component.name)
    (hp : p.components = cwd.components ++ below r.raw) (hr : r.IsTrimmed)
    (hup : .up ∉ below r.raw) (hs : s = r ∨ r.raw = [dot] ++ slash :: s.raw)
    (hbelow : ¬ dir.IsAbove p.normalize) (ha : a ∈ s.ancestors) :
    IsOutside (joinWith [slash] names) a.raw := by
  obtain ⟨more, hmore⟩ := prefix_raw_of_mem_ancestors ha
  obtain ⟨start, hstart, hsame⟩ : ∃ start,
      r.raw = start ++ s.raw ∧ below r.raw = below s.raw := by
    rcases hs with rfl | hs
    · exact ⟨[], rfl, rfl⟩
    · refine ⟨[dot, slash], hs, ?_⟩
      rw [hs, below_append_slash]
      rfl
  refine ⟨fun t ht => hbelow ?_, fun t ht => hup ?_⟩
  · rw [ht, List.append_assoc, List.cons_append] at hmore
    have hrest : below r.raw = names.map Component.name ++ below (t ++ more) := by
      rw [hsame, ← hmore, below_append_slash, below_joinWith_names hnames]
    have hne : below (t ++ more) ≠ [] := by
      refine hr.below_ne_nil (start ++ joinWith [slash] names) ?_
      rw [hstart, ← hmore, List.append_assoc]
    obtain ⟨after, hafter⟩ : ∃ after : List RawText, below (t ++ more) = after.map Component.name :=
      exists_names_of_up_notMem (fun _ => eq_up_or_name_of_mem_below) fun hmem =>
        hup (by rw [hrest]; exact List.mem_append_right _ hmem)
    refine isAbove_normalize hdir after ?_ (fun name hname => ?_) ?_
    · rintro rfl
      exact hne hafter
    · refine proper_of_mem_below (t := t ++ more) ?_
      rw [hafter]
      exact List.mem_map_of_mem hname
    · rw [hp, hrest, hafter, hcomponents, List.append_assoc]
  · have hs : s.raw = [dot, dot] ++ slash :: (t ++ more) := by rw [← hmore, ht]; rfl
    rw [hsame, hs, below_append_slash]
    exact List.mem_append_left _ (by decide)

/-- Rules that agree outside of a directory ignore the same paths that do not lie below it. -/
theorem AgreeOutside.ignores_eq (h : AgreeOutside (joinWith [slash] names) rules rules')
    (hcwd : cwd.isAbsolute = true) (hdir : dir.IsNormal)
    (hnames : ∀ name ∈ names, (Component.name name).Proper)
    (hcomponents : dir.components = cwd.components ++ names.map Component.name)
    (hq : q.isAbsolute = true ∨ q.IsTrimmed) (hbelow : ¬ dir.IsAbove (cwd.absolutize q)) :
    rules.ignores cwd q isDir = rules'.ignores cwd q isDir := by
  have hask : ∀ r p : Path, r.isAbsolute = false → r.IsTrimmed →
      p.components = cwd.components ++ below r.raw → ¬ dir.IsAbove p.normalize →
        .up ∉ r.components →
          IgnorePattern.ignores rules.patterns r isDir =
            IgnorePattern.ignores rules'.patterns r isDir := by
    intro r p hrelative hr hp hbelow hup
    have hup' : .up ∉ below r.raw := fun hmem => hup (mem_components_of_mem_below hrelative hmem)
    unfold IgnorePattern.ignores
    dsimp only
    refine congrArg (Option.getD · false) (h.verdictUpward?_eq (fun a ha => ?_) isDir)
    refine isOutside_of_mem_ancestors hdir hnames hcomponents hp hr hup' ?_ hbelow ha
    split
    · next heq => exact .inr heq
    · exact .inl rfl
  unfold RuleSet.ignores
  split
  · rfl
  · next r hr =>
    split
    · rfl
    · next hnot =>
      rw [Bool.or_eq_true, not_or, List.contains_iff_mem] at hnot
      cases habsolute : q.isAbsolute with
      | true =>
        rw [habsolute, if_pos rfl] at hr
        rw [absolutize, habsolute, if_pos rfl] at hbelow
        obtain ⟨hrelative, htrimmed, hcomponents⟩ := exists_of_relativeTo? habsolute hcwd hr
        exact hask r q hrelative htrimmed hcomponents hbelow hnot.2
      | false =>
        rw [habsolute, if_neg Bool.false_ne_true] at hr
        obtain rfl := Option.some.inj hr
        rw [absolutize, habsolute, if_neg Bool.false_ne_true] at hbelow
        exact hask q (cwd.join q) habsolute (hq.resolve_left (by simp [habsolute]))
          (components_join hcwd habsolute) hbelow hnot.2

end Query

end Typesweep
