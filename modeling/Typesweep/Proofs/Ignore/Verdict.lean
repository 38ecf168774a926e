import Typesweep.Proofs.Ignore.Agreement

/-!
# Asking rules for a path

A path is asked for by its names below the working directory. The last rule that matches it
decides, or else the last one that matches the directory above it, and so on up: a path can be taken
back although a directory above it is ignored. If no rule that matches any of them is negated,
the order is of no matter: the path is ignored if some rule matches it or a directory above it, and
with a directory all that lies below it is ignored.

* `RuleSet.asked?`, `asked?_under`: the path that the rules are asked for.
* `IgnorePattern.Touches`: a rule that matches a path or a directory above it.
* `RuleSet.ignores_iff`, `IgnorePattern.Touches.of_isAbove`: rules that are not negated.
-/

namespace Typesweep

open Text
open RawText (slash dot)

variable {cwd cwd' dir file path q : Path} {names more : List RawText} {name : RawText}
  {isDir : Bool} {rules : RuleSet} {p : IgnorePattern} {patterns : List IgnorePattern}
  {paths : List Path}

namespace Path

open Component

theorem joinWith_names_ne_nil (hne : names ≠ [])
    (hnames : ∀ name ∈ names, (Component.name name).Proper) : joinWith [slash] names ≠ [] := by
  intro heq
  have hbelow := below_joinWith_names hnames
  rw [heq, below_nil] at hbelow
  exact hne (List.map_eq_nil_iff.mp hbelow.symm)

theorem ne_here_of_proper (h : (Component.name name).Proper) : name ≠ [dot] := by
  rintro rfl
  exact absurd h.1 (by decide)

/-- Names that are joined are not read with a `./` at the start. -/
theorem joinWith_names_ne_here (hnames : ∀ name ∈ names, (Component.name name).Proper)
    (t : RawText) : joinWith [slash] names ≠ dot :: slash :: t := by
  intro heq
  cases names with
  | nil => cases heq
  | cons name names =>
    have hcut : splitOn slash (joinWith [slash] (name :: names)) = name :: names :=
      splitOn_joinWith (List.cons_ne_nil name names) fun piece hpiece => (hnames piece hpiece).2
    rw [heq] at hcut
    have hname : name = [dot] := (List.cons.inj hcut).1.symm
    exact ne_here_of_proper (hnames name List.mem_cons_self) hname

theorem isAbsolute_joinWith_names (hnames : ∀ name ∈ names, (Component.name name).Proper) :
    isAbsolute ⟨joinWith [slash] names⟩ = false := by
  refine isAbsolute_joinWith (fun name h => (hnames name h).2) fun name h => ?_
  exact isNoise_raw (hnames name (List.mem_of_head? h))

theorem segments_joinWith (hne : names ≠ [])
    (hnames : ∀ name ∈ names, (Component.name name).Proper) :
    segments ⟨joinWith [slash] names⟩ = names :=
  splitOn_joinWith hne fun name h => (hnames name h).2

theorem components_joinWith (hnames : ∀ name ∈ names, (Component.name name).Proper) :
    components ⟨joinWith [slash] names⟩ = names.map Component.name := by
  by_cases hne : names = []
  · subst hne
    rfl
  · obtain ⟨first, rest, rfl⟩ := List.exists_cons_of_ne_nil hne
    have hbelow := below_joinWith_names hnames
    rw [below, splitOn_joinWith hne fun name h => (hnames name h).2] at hbelow
    rw [components, segments_joinWith hne hnames, ← hbelow]
    dsimp only
    rw [leading?, isAbsolute_joinWith_names hnames, if_neg Bool.false_ne_true,
      if_neg (ne_here_of_proper (hnames first List.mem_cons_self)), List.filterMap_cons]
    cases Component.ofSegment? first <;> rfl

theorem parent?_joinWith (h : ∀ other ∈ names ++ [name], (Component.name other).Proper) :
    parent? ⟨joinWith [slash] (names ++ [name])⟩ = some ⟨joinWith [slash] names⟩ := by
  have hkept : ∀ names : List RawText, (∀ other ∈ names, (Component.name other).Proper) →
      dropNoiseEnd names = names := fun names h =>
    dropNoiseEnd_eq_self fun other hother => isNoise_raw (h other (List.mem_of_getLast? hother))
  have hsplit : split ⟨joinWith [slash] (names ++ [name])⟩ = ([], names ++ [name]) := by
    obtain ⟨first, rest, heq⟩ := List.exists_cons_of_ne_nil (show names ++ [name] ≠ [] by simp)
    have hfirst : (Component.name first).Proper := h first (by rw [heq]; exact List.mem_cons_self)
    rw [split, segments_joinWith (by simp) h, isAbsolute_joinWith_names h, heq]
    simp [ne_here_of_proper hfirst]
  rw [parent?, hsplit]
  dsimp only
  rw [hkept _ h]
  split
  · next hnil => simp at hnil
  · rw [List.dropLast_concat,
      hkept names fun other hother => h other (List.mem_append_left _ hother)]
    rfl

/-- The directories above a path, nearest first. -/
theorem ancestors_joinWith (h : ∀ other ∈ names ++ [name], (Component.name other).Proper) :
    ancestors ⟨joinWith [slash] (names ++ [name])⟩ =
      ⟨joinWith [slash] (names ++ [name])⟩ :: ancestors ⟨joinWith [slash] names⟩ := by
  have habove : ∀ other ∈ names, (Component.name other).Proper := fun other hother =>
    h other (List.mem_append_left [name] hother)
  rw [ancestors, ancestors, components_joinWith h, components_joinWith habove, List.map_append,
    List.length_append, ancestorsUpTo, parent?_joinWith h]
  rfl

end Path

/-! ## The path that is asked for -/

namespace Path

/-- The path without a `./` at its start. -/
def withoutHere (path : Path) : Path :=
  match path.raw with
  | dot :: slash :: rest => ⟨rest⟩
  | _ => path

theorem withoutHere_joinWith (hnames : ∀ name ∈ names, (Component.name name).Proper) :
    withoutHere ⟨joinWith [slash] names⟩ = ⟨joinWith [slash] names⟩ := by
  unfold withoutHere
  split
  · next rest heq => exact absurd heq (joinWith_names_ne_here hnames rest)
  · rfl

end Path

theorem IgnorePattern.ignores_eq (path : Path) :
    IgnorePattern.ignores patterns path isDir =
      (verdictUpward? patterns isDir path.withoutHere.ancestors).getD false :=
  rfl

namespace RuleSet

/-- The path that rules read from `cwd` are asked for when they are asked for a path; none if the
path is `cwd` itself or lies outside of it. -/
def asked? (cwd path : Path) : Option Path :=
  match if path.isAbsolute then path.relativeTo? cwd else some path with
  | none => none
  | some relative =>
    if relative.raw = [] || relative.components.contains .up then none
    else some relative.withoutHere

theorem ignores_of_asked? (h : asked? cwd path = some q) :
    rules.ignores cwd path isDir =
      (IgnorePattern.verdictUpward? rules.patterns isDir q.ancestors).getD false := by
  unfold asked? at h
  unfold ignores
  generalize (if path.isAbsolute then path.relativeTo? cwd else some path) = relative? at h ⊢
  cases relative? with
  | none => cases h
  | some relative =>
    dsimp only at h ⊢
    split at h
    · cases h
    · next hnot =>
      obtain rfl := Option.some.inj h
      rw [if_neg hnot, IgnorePattern.ignores_eq]

theorem ignores_of_asked?_eq_none (h : asked? cwd path = none) :
    rules.ignores cwd path isDir = false := by
  unfold asked? at h
  unfold ignores
  generalize (if path.isAbsolute then path.relativeTo? cwd else some path) = relative? at h ⊢
  cases relative? with
  | none => rfl
  | some relative =>
    dsimp only at h ⊢
    split at h
    · next hout => rw [if_pos hout]
    · cases h

open Typesweep.Path in
theorem asked?_of_relative (hne : names ≠ [])
    (hnames : ∀ name ∈ names, (Component.name name).Proper)
    (h : (if path.isAbsolute then path.relativeTo? cwd else some path) =
      some ⟨joinWith [slash] names⟩) : asked? cwd path = some ⟨joinWith [slash] names⟩ := by
  have hup : Component.up ∉ components ⟨joinWith [slash] names⟩ := by
    rw [components_joinWith hnames]
    simp
  unfold asked?
  rw [h]
  dsimp only
  rw [if_neg (by simpa using ⟨joinWith_names_ne_nil hne hnames, hup⟩),
    withoutHere_joinWith hnames]

open Typesweep.Path in
theorem asked?_under (hcwd : cwd.IsNormal) (hne : names ≠ [])
    (hnames : ∀ name ∈ names, (Component.name name).Proper) :
    asked? cwd (cwd.under names) = some ⟨joinWith [slash] names⟩ := by
  refine asked?_of_relative hne hnames ?_
  rw [(components_under hcwd.1 hnames).1, if_pos rfl, relativeTo?_under hcwd hnames]

open Typesweep.Path in
theorem asked?_joinWith (cwd : Path) (hne : names ≠ [])
    (hnames : ∀ name ∈ names, (Component.name name).Proper) :
    asked? cwd ⟨joinWith [slash] names⟩ = some ⟨joinWith [slash] names⟩ := by
  refine asked?_of_relative hne hnames ?_
  rw [isAbsolute_joinWith_names hnames, if_neg Bool.false_ne_true]

open Typesweep.Path in
/-- Only what lies below the working directory is asked for. -/
theorem exists_under_of_asked? (hcwd : cwd.IsNormal) (hpath : path.IsNormal)
    (h : asked? cwd path = some q) : ∃ names : List RawText, names ≠ [] ∧
      (∀ name ∈ names, (Component.name name).Proper) ∧ path = cwd.under names ∧
        q = ⟨joinWith [slash] names⟩ := by
  have hasked := h
  unfold asked? at h
  rw [hpath.1, if_pos rfl] at h
  split at h
  · cases h
  · next relative hrelative =>
    split at h
    · cases h
    · next hnot =>
      rw [Bool.or_eq_true, not_or, decide_eq_true_iff, List.contains_iff_mem] at hnot
      obtain ⟨hr, -, hcomponents⟩ := exists_of_relativeTo? hpath.1 hcwd.1 hrelative
      obtain ⟨names, hnames⟩ := exists_names_of_up_notMem
        (fun _ => eq_up_or_name_of_mem_below) fun hmem =>
          hnot.2 (mem_components_of_mem_below hr hmem)
      have hproper : ∀ name ∈ names, (Component.name name).Proper := fun name hname =>
        proper_of_mem_below (t := relative.raw) (hnames ▸ List.mem_map_of_mem hname)
      have hunder : path = cwd.under names := by
        refine hpath.eq_of_same (hcwd.under hproper) ?_
        show path.components = _
        rw [hcomponents, hnames, (components_under hcwd.1 hproper).2]
      subst hunder
      have hne : names ≠ [] := by
        rintro rfl
        rw [relativeTo?_under hcwd hproper] at hrelative
        exact hnot.1 (congrArg Path.raw (Option.some.inj hrelative)).symm
      rw [asked?_under hcwd hne hproper] at hasked
      exact ⟨names, hne, hproper, rfl, (Option.some.inj hasked).symm⟩

end RuleSet

/-! ## Rules that match a path or a directory above it -/

namespace IgnorePattern

/-- Whether the rule matches the first of the paths or one of the others, which are directories. -/
def Reaches (p : IgnorePattern) : Bool → List Path → Prop
  | _, [] => False
  | isDir, path :: above =>
    p.accepts path.raw isDir = true ∨ p.Reaches true above

/-- If no rule that matters is negated, their order does not matter. -/
theorem verdictUpward?_getD_iff
    (h : ∀ p ∈ patterns, p.Reaches isDir paths → p.negated = false) :
    (verdictUpward? patterns isDir paths).getD false = true ↔
      ∃ p ∈ patterns, p.Reaches isDir paths := by
  induction paths generalizing isDir with
  | nil => simp [verdictUpward?, Reaches]
  | cons path above ih =>
    rw [verdictUpward?]
    cases hfound : patterns.reverse.find? fun rule =>
        rule.accepts path.raw isDir with
    | none =>
      have hnone : verdict? patterns path isDir = none := by rw [verdict?, hfound]; rfl
      have hmisses : ∀ p ∈ patterns, ¬ p.accepts path.raw isDir = true :=
        fun p hp => List.find?_eq_none.mp hfound p (List.mem_reverse.mpr hp)
      rw [hnone, Option.none_or, ih fun p hp hreaches => h p hp (.inr hreaches)]
      constructor
      · rintro ⟨p, hp, hreaches⟩
        exact ⟨p, hp, .inr hreaches⟩
      · rintro ⟨p, hp, hreaches⟩
        exact ⟨p, hp, hreaches.resolve_left (hmisses p hp)⟩
    | some p =>
      have hp : p ∈ patterns := List.mem_reverse.mp (List.mem_of_find?_eq_some hfound)
      have haccepts : p.accepts path.raw isDir = true := by
        simpa using List.find?_some hfound
      have hreaches : p.Reaches isDir (path :: above) := .inl haccepts
      have hsome : verdict? patterns path isDir = some true := by
        rw [verdict?, hfound, Option.map_some, h p hp hreaches]
        rfl
      rw [hsome]
      exact ⟨fun _ => ⟨p, hp, hreaches⟩, fun _ => rfl⟩

/-- What matches a directory or above matches also what lies in it, or above. -/
theorem Reaches.append (h : p.Reaches true (Path.ancestors ⟨joinWith [slash] names⟩))
    (hne : more ≠ []) (hnames : ∀ name ∈ names ++ more, (Component.name name).Proper) :
    p.Reaches isDir (Path.ancestors ⟨joinWith [slash] (names ++ more)⟩) := by
  induction more using List.reverseRecOn generalizing isDir with
  | nil => exact absurd rfl hne
  | append_singleton more name ih =>
    rw [← List.append_assoc] at hnames ⊢
    rw [Path.ancestors_joinWith hnames]
    right
    by_cases hmore : more = []
    · subst hmore
      rwa [List.append_nil]
    · exact ih hmore fun name hname => hnames name (List.mem_append_left _ hname)

/-- Whether the rule, read from `cwd`, matches a path or a directory above it. -/
def Touches (p : IgnorePattern) (cwd path : Path) (isDir : Bool) : Prop :=
  ∃ q, RuleSet.asked? cwd path = some q ∧ p.Reaches isDir q.ancestors

theorem Touches.of_isAbove (h : p.Touches cwd dir true) (hcwd : cwd.IsNormal)
    (hdir : dir.IsNormal) (hbelow : dir.IsAbove file) : p.Touches cwd file isDir := by
  obtain ⟨q, hasked, hreaches⟩ := h
  obtain ⟨names, hne, hnames, rfl, rfl⟩ := RuleSet.exists_under_of_asked? hcwd hdir hasked
  obtain ⟨more, hmore, hproper, rfl⟩ := hbelow
  have hall : ∀ name ∈ names ++ more, (Component.name name).Proper :=
    List.forall_mem_append.mpr ⟨hnames, hproper⟩
  refine ⟨_, ?_, hreaches.append hmore hall⟩
  rw [← Path.under_append]
  exact RuleSet.asked?_under hcwd (by simp [hne]) hall

end IgnorePattern

namespace RuleSet

open Typesweep.Path in
/-- The rules are read from the components of a directory, however it is written. -/
theorem ignores_congr (h : cwd.Same cwd') (path : Path) (isDir : Bool) :
    rules.ignores cwd path isDir = rules.ignores cwd' path isDir := by
  have hrelative : path.relativeTo? cwd = path.relativeTo? cwd' := by
    rw [relativeTo?, relativeTo?, show cwd.components = cwd'.components from h]
  rw [ignores, ignores, hrelative]

open Typesweep.Path in
theorem prefix_of_ignores (hcwd : cwd.isAbsolute = true) (hpath : path.isAbsolute = true)
    (h : rules.ignores cwd path isDir = true) : cwd.components <+: path.components := by
  rw [ignores, if_pos hpath] at h
  cases hrelative : path.relativeTo? cwd with
  | none =>
    rw [hrelative] at h
    cases h
  | some relative =>
    rw [(exists_of_relativeTo? hpath hcwd hrelative).2.2]
    exact List.prefix_append _ _

/-- If no rule that matches a path or a directory above it is negated, the path is ignored if there
is such a rule. -/
theorem ignores_iff
    (h : ∀ p ∈ rules.patterns, p.Touches cwd path isDir → p.negated = false) :
    rules.ignores cwd path isDir = true ↔ ∃ p ∈ rules.patterns, p.Touches cwd path isDir := by
  cases hasked : asked? cwd path with
  | none =>
    rw [ignores_of_asked?_eq_none hasked]
    simp [IgnorePattern.Touches, hasked]
  | some q =>
    have htouches : ∀ p : IgnorePattern,
        p.Touches cwd path isDir ↔ p.Reaches isDir q.ancestors := by
      simp [IgnorePattern.Touches, hasked]
    simp only [htouches] at h ⊢
    rw [ignores_of_asked? hasked, IgnorePattern.verdictUpward?_getD_iff h]

/-- Below an ignored directory all is ignored, also with more rules, if no rule that matches there
is negated. -/
theorem ignores_of_isAbove {earlier : RuleSet} (hcwd : cwd.IsNormal) (hdir : dir.IsNormal)
    (hbelow : dir.IsAbove file)
    (h : ∀ p ∈ rules.patterns, p.Touches cwd file isDir → p.negated = false)
    (hearlier : earlier.patterns ⊆ rules.patterns)
    (hignored : earlier.ignores cwd dir true = true) :
    rules.ignores cwd file isDir = true := by
  have habove : ∀ p ∈ earlier.patterns, p.Touches cwd dir true → p.negated = false :=
    fun p hp htouches => h p (hearlier hp) (htouches.of_isAbove hcwd hdir hbelow)
  obtain ⟨p, hp, htouches⟩ := (ignores_iff habove).mp hignored
  exact (ignores_iff h).mpr ⟨p, hearlier hp, htouches.of_isAbove hcwd hdir hbelow⟩

end RuleSet

end Typesweep
