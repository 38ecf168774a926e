import Typesweep.Proofs.Config.Members
import Typesweep.Proofs.Glob.Anchored
import Typesweep.Proofs.Path.Moved
import Typesweep.Proofs.Path.Shown

/-!
# Entries without their directory

An entry that is relative and has no `..` means the same in every directory: the names it leads
along before its first wildcard, and the pattern of what comes below the directory. The directory
comes in only as escaped text in front of the pattern, as the start of the bases, and with its
length in the place of a fault.

* `splitEntry_eq`, `entryPatterns_under`: one entry.
* `LocalSet`, `exists_compile`: the entries of a list.
* `LocalSet.accepts_placed`: what the patterns of a list match below a directory.
-/

namespace Typesweep

open Text Typesweep.Path
open RawText (slash)

variable {dir path : Path} {entry wild s t : Text} {entries : List Text} {names : List RawText}

/-! ## Texts behind a directory -/

namespace Glob

theorem IsBehind.append (hs : IsBehind s) (ht : IsBehind t) : IsBehind (s ++ t) := by
  cases s with
  | nil => exact ht
  | cons c s => exact hs

theorem IsBehind.escape (h : IsBehind t) : IsBehind (escape t) := by
  obtain rfl | ⟨rest, rfl⟩ := h.eq_nil_or_slash
  · exact .nil
  · exact .slash (Glob.escape rest)

theorem IsBehind.trimEnd (h : IsBehind t) (drop : Char → Bool) : IsBehind (trimEnd drop t) := by
  obtain ⟨trimmed, heq, -⟩ := exists_trimEnd_append drop t
  intro c hc
  exact h c (by rw [heq, List.head?_append, hc]; rfl)

theorem isBehind_wayDown (names : List RawText) : IsBehind (ofBytes (wayDown names)) := by
  cases names with
  | nil => exact .nil
  | cons name names =>
    have hway : wayDown (name :: names) = slash :: (name ++ wayDown names) := List.flatMap_cons
    rw [hway, ofBytes_cons_slash]
    exact .slash _

end Glob

theorem Path.IsBelowRoot.text_under (h : dir.IsBelowRoot)
    (hnames : ∀ name ∈ names, (Component.name name).Proper) :
    (dir.under names).text = dir.text ++ ofBytes (wayDown names) := by
  rw [Path.text, h.raw_under hnames]
  cases names with
  | nil => exact (congrArg ofBytes (List.append_nil _)).trans (List.append_nil _).symm
  | cons name names =>
    have hway : wayDown (name :: names) = slash :: (name ++ wayDown names) := List.flatMap_cons
    rw [hway, ofBytes_append_slash, ofBytes_cons_slash]
    rfl

open Glob

/-! ## Entries -/

/-- The names that an entry leads along before its first wildcard. -/
def literalNames (entry : Text) : List RawText :=
  namesOf ((Path.components (.ofText entry)).takeWhile fun c => !isWild c.text)

/-- The text of an entry from its first wildcard on. -/
def wildText (entry : Text) : Text :=
  joinWith ['/']
    (((Path.components (.ofText entry)).dropWhile fun c => !isWild c.text).map Component.text)

theorem isStep_of_mem_literal (h : IsLocal (.ofText entry)) :
    ∀ c ∈ (Path.components (.ofText entry)).takeWhile fun c => !isWild c.text, IsStep c :=
  fun c hc => h.components_eq.1 c ((List.takeWhile_sublist _).subset hc)

theorem proper_literalNames (h : IsLocal (.ofText entry)) :
    ∀ name ∈ literalNames entry, (Component.name name).Proper :=
  proper_of_mem_namesOf (isStep_of_mem_literal h)

theorem splitEntry_eq (hdir : dir.IsNormal) (h : IsLocal (.ofText entry)) :
    splitEntry dir entry = (dir.under (literalNames entry), wildText entry) := by
  obtain ⟨hrelative, hbelow⟩ := below_ofComponents_steps (isStep_of_mem_literal h)
  exact congrArg (·, wildText entry) (absolutize_eq_under hdir hrelative hbelow)

/-- The patterns of an entry are the same texts behind any directory. -/
theorem exists_entryPatterns (hnames : ∀ name ∈ names, (Component.name name).Proper)
    (wild : Text) : ∃ first second, IsBehind first ∧ IsBehind second ∧
      ∀ dir : Path, dir.IsBelowRoot → entryPatterns (dir.under names) wild =
        (escape dir.text ++ first, escape dir.text ++ second) := by
  have htrim : ∀ dir : Path, dir.IsBelowRoot → ∀ t,
      trimEnd (fun c => c = '/') (escape dir.text ++ t) =
        escape dir.text ++ trimEnd (fun c => c = '/') t := fun dir hdir t => by
    refine trimEnd_append_of_getLast? (fun c hc => decide_eq_false ?_) t
    rintro rfl
    exact hdir.getLast?_ne (getLast?_text_iff.mp (getLast?_escape _ hc))
  have hescaped := (isBehind_wayDown names).escape
  by_cases hwild : wild = []
  · refine ⟨_, _, hescaped, (hescaped.trimEnd (fun c => c = '/')).append (.slash "**/*".toList),
      fun dir hdir => ?_⟩
    rw [entryPatterns, hdir.text_under hnames, escape_append]
    simp only [if_pos hwild, htrim dir hdir, List.append_assoc]
    rfl
  · have hfirst := (hescaped.trimEnd (fun c => c = '/')).append (.slash wild)
    refine ⟨_, _, hfirst, (hfirst.trimEnd (fun c => c = '/')).append (.slash "**/*".toList),
      fun dir hdir => ?_⟩
    rw [entryPatterns, hdir.text_under hnames, escape_append]
    simp only [if_neg hwild, htrim dir hdir, List.append_assoc]
    rfl

/-! ## Lists -/

/-- The fault of an entry, in the configuration at `path` in the directory `dir`. -/
def entryError (dir path : Path) (e : Text × Fault) : ConfigError :=
  .badPattern e.1 path (e.2.behind (escape dir.text).length)

/-- What the patterns of a list of local entries are apart from their directory. -/
structure LocalSet where
  patterns : List Pattern
  /-- The names along which the bases lie below the directory. -/
  bases : List (List RawText)

namespace LocalSet

/-- The pattern set in a directory. -/
def placed (s : LocalSet) (dir : Path) : PatternSet where
  patterns := s.patterns.map (Pattern.behind dir.text)
  bases := Path.sortedDistinct (s.bases.map dir.under)

/-- Whether some pattern matches what lies along the names below the directory. -/
def accepts (s : LocalSet) (spelled : Bool) (names : List RawText) : Bool :=
  s.patterns.any fun pattern => pattern.accepts spelled (ofBytes (wayDown names))

theorem accepts_placed (s : LocalSet) (hdir : dir.IsBelowRoot) (spelled : Bool)
    (hnames : ∀ name ∈ names, (Component.name name).Proper) :
    (s.placed dir).accepts spelled (dir.under names) = s.accepts spelled names := by
  rw [PatternSet.accepts, placed, List.any_map, accepts, hdir.text_under hnames]
  refine congrArg s.patterns.any (funext fun pattern => ?_)
  exact accepts_behind pattern spelled dir.text (isBehind_wayDown names)

theorem mem_bases_placed {s : LocalSet} (hdir : dir.IsBelowRoot)
    (hbases : ∀ names ∈ s.bases, ∀ name ∈ names, (Component.name name).Proper) {base : Path} :
    base ∈ (s.placed dir).bases ↔ ∃ names ∈ s.bases, base = dir.under names := by
  have hnormal : ∀ base ∈ s.bases.map dir.under, base.IsNormal :=
    List.forall_mem_map.mpr fun names hnames => hdir.normal.under (hbases names hnames)
  rw [placed, mem_sortedDistinct_iff hnormal, List.mem_map]
  simp only [eq_comm]

end LocalSet

/-- Compiling local entries gives the same in all directories, apart from the directory itself. -/
theorem exists_compilePatterns (h : ∀ entry ∈ entries, IsLocal (.ofText entry)) :
    ∃ r : Except (Text × Fault) (List Pattern), ∀ dir path : Path, dir.IsBelowRoot →
      PatternSet.compilePatterns path dir entries =
        (r.map (List.map (Pattern.behind dir.text))).mapError (entryError dir path) := by
  induction entries with
  | nil => exact ⟨.ok [], fun _ _ _ => rfl⟩
  | cons entry entries ih =>
    obtain ⟨hentry, hrest⟩ := List.forall_mem_cons.mp h
    obtain ⟨r, hr⟩ := ih hrest
    obtain ⟨first, second, hfirst, hsecond, hpatterns⟩ :=
      exists_entryPatterns (proper_literalNames hentry) (wildText entry)
    have hparse := fun dir : Path => parse_escape_append dir.text hfirst
    have hparse' := fun dir : Path => parse_escape_append dir.text hsecond
    cases hp : parse first with
    | error fault =>
      refine ⟨.error (entry, fault), fun dir path hdir => ?_⟩
      rw [PatternSet.compilePatterns, splitEntry_eq hdir.normal hentry]
      simp only [hpatterns dir hdir, hparse, hp]
      rfl
    | ok p =>
      cases hq : parse second with
      | error fault =>
        refine ⟨.error (entry, fault), fun dir path hdir => ?_⟩
        rw [PatternSet.compilePatterns, splitEntry_eq hdir.normal hentry]
        simp only [hpatterns dir hdir, hparse, hp, hparse', hq]
        rfl
      | ok q =>
        refine ⟨r.map fun rest => p :: q :: rest, fun dir path hdir => ?_⟩
        rw [PatternSet.compilePatterns, splitEntry_eq hdir.normal hentry]
        simp only [hpatterns dir hdir, hparse, hp, hparse', hq, hr dir path hdir]
        cases r <;> rfl

theorem exists_compile (h : ∀ entry ∈ entries, IsLocal (.ofText entry)) :
    ∃ r : Except (Text × Fault) LocalSet,
      (∀ s, r = .ok s → ∀ names ∈ s.bases, ∀ name ∈ names, (Component.name name).Proper) ∧
        ∀ dir path : Path, dir.IsBelowRoot → PatternSet.compile ⟨dir, entries⟩ path =
          (r.map (LocalSet.placed · dir)).mapError (entryError dir path) := by
  obtain ⟨r, hr⟩ := exists_compilePatterns h
  refine ⟨r.map (LocalSet.mk · (entries.map literalNames)), ?_, fun dir path hdir => ?_⟩
  · rintro s hs
    obtain ⟨patterns, rfl⟩ : ∃ patterns, s = ⟨patterns, entries.map literalNames⟩ := by
      cases r with
      | error e => cases hs
      | ok patterns => exact ⟨patterns, (Except.ok.inj hs).symm⟩
    exact List.forall_mem_map.mpr fun entry hentry => proper_literalNames (h entry hentry)
  · have hbases : (entries.map fun entry => (splitEntry dir entry).1) =
        (entries.map literalNames).map dir.under := by
      rw [List.map_map]
      exact List.map_congr_left fun entry hentry =>
        congrArg Prod.fst (splitEntry_eq hdir.normal (h entry hentry))
    rw [PatternSet.compile, hr dir path hdir, hbases]
    cases r <;> rfl

end Typesweep
