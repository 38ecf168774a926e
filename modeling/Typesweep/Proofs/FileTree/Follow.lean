import Mathlib.Data.List.Basic
import Typesweep.FileTree.Basic
import Typesweep.Proofs.Path.Components

/-!
# Trees without links

Without links the place that a path leads to can be told from its components.

* `find_eq_foldl_walk`: the place.
* `isDir_iff`, `isFile_iff`: what a path leads to.
* `exists_parent_of_isFile`: with or without links, the path of a file has one above it.
* `exists_place_of_isFile`: the names at the end of the path of a file are those of a place that
  holds something.
-/

namespace Typesweep

open RawText (dot)

/-- Where a component leads from a place. -/
def Component.walk (here : Place) : Component → Place
  | .root => here
  | .here => here
  | .up => here.dropLast
  | .name n => here ++ [n]

theorem Component.foldl_walk_names (names : List RawText) (here : Place) :
    (names.map Component.name).foldl Component.walk here = here ++ names := by
  induction names generalizing here with
  | nil => exact (List.append_nil here).symm
  | cons name names ih =>
    rw [List.map_cons, List.foldl_cons, ih, Component.walk, List.append_assoc]
    rfl

/-- No `..` leads away from the top. -/
theorem Component.foldl_walk_top {cs : List Component} (h : ∀ c ∈ cs, c = .root ∨ c = .up) :
    cs.foldl Component.walk [] = [] := by
  induction cs with
  | nil => rfl
  | cons c cs ih =>
    obtain ⟨hc, hcs⟩ := List.forall_mem_cons.mp h
    rcases hc with rfl | rfl <;> exact ih hcs

namespace FileTree

open Component

variable {t : FileTree} {p : Path} {here place : Place}

/-- No entry is a link. -/
def LinkFree (t : FileTree) : Prop :=
  ∀ e ∈ t.entries, ∀ target, e.2 ≠ .link target

theorem mem_entries_of_some {e : Entry} (hne : place ≠ []) (h : t.entry? place = some e) :
    (place, e) ∈ t.entries := by
  unfold entry? at h
  rw [if_neg hne] at h
  obtain ⟨before, after, heq, _⟩ := List.lookup_eq_some_iff.mp h
  rw [heq]
  exact List.mem_append_right before List.mem_cons_self

theorem LinkFree.entry?_ne (h : t.LinkFree) (target : Path) :
    t.entry? place ≠ some (.link target) := by
  intro heq
  by_cases hplace : place = []
  · unfold entry? at heq
    rw [if_pos hplace] at heq
    cases heq
  · exact h _ (mem_entries_of_some hplace heq) target rfl

theorem followWith_eq_foldl_walk (hlinks : t.LinkFree)
    {onLink : Place → List RawText → Except AccessError Place} {segments : List RawText}
    (h : t.followWith onLink here segments = .ok place) :
    place = (segments.filterMap ofSegment?).foldl walk here := by
  induction segments generalizing here with
  | nil => exact (Except.ok.inj h).symm
  | cons segment rest ih =>
    rw [followWith] at h
    split at h
    · cases h
    · cases h
    · cases h
    · by_cases hstay : segment = [] ∨ segment = [dot]
      · rw [if_pos hstay] at h
        rw [List.filterMap_cons, ofSegment?_eq_none_iff.mpr hstay]
        exact ih h
      · rw [if_neg hstay] at h
        rw [not_or] at hstay
        by_cases hup : segment = [dot, dot]
        · subst hup
          exact ih h
        · rw [if_neg hup] at h
          have hname : ofSegment? segment = some (.name segment) := by
            rw [ofSegment?, if_neg hstay.1, if_neg hstay.2, if_neg hup]
          rw [List.filterMap_cons, hname]
          split at h
          · cases h
          · next hlink => exact absurd hlink (hlinks.entry?_ne _)
          · exact ih h

theorem follow_eq_foldl_walk (hlinks : t.LinkFree) {links : Nat} {segments : List RawText}
    (h : t.follow links here segments = .ok place) :
    place = (segments.filterMap ofSegment?).foldl walk here := by
  cases links with
  | zero => exact followWith_eq_foldl_walk hlinks h
  | succ links => exact followWith_eq_foldl_walk hlinks h

theorem isAbsolute_of_find (h : t.find p = .ok place) : p.isAbsolute = true := by
  by_contra hp
  rw [find, if_neg hp] at h
  cases h

/-- Where an absolute path leads is told by its components. -/
theorem find_eq_foldl_walk (hlinks : t.LinkFree) (h : t.find p = .ok place) :
    place = p.components.foldl walk [] := by
  have hp := isAbsolute_of_find h
  rw [find, if_pos hp] at h
  have hplace := follow_eq_foldl_walk hlinks h
  obtain ⟨rest, rfl⟩ := Path.exists_raw_of_isAbsolute hp
  rw [Path.segments_slash] at hplace
  rw [Path.components_slash]
  exact hplace

theorem lookup_eq_ok_iff {entry : Entry} :
    t.lookup p = .ok entry ↔ ∃ place, t.find p = .ok place ∧ t.entry? place = some entry := by
  unfold lookup
  cases hfind : t.find p with
  | error e => simp
  | ok place => cases hentry : t.entry? place <;> simp [hentry]

theorem isDir_iff :
    t.isDir p = true ↔ ∃ place, t.find p = .ok place ∧ t.entry? place = some .dir := by
  rw [← lookup_eq_ok_iff, isDir]
  rcases t.lookup p with e | ⟨_ | _ | _⟩ <;> simp

theorem isFile_iff :
    t.isFile p = true ↔ ∃ place content executable, t.find p = .ok place ∧
      t.entry? place = some (.file content executable) := by
  have hlookup : t.isFile p = true ↔
      ∃ content executable, t.lookup p = .ok (.file content executable) := by
    rw [isFile]
    rcases t.lookup p with e | ⟨_ | _ | _⟩ <;> simp
  simp only [hlookup, lookup_eq_ok_iff]
  exact ⟨fun ⟨content, executable, place, h⟩ => ⟨place, content, executable, h⟩,
    fun ⟨place, content, executable, h⟩ => ⟨content, executable, place, h⟩⟩

theorem exists_find_of_isFile (h : t.isFile p = true) : ∃ place content executable,
    t.find p = .ok place ∧ place ≠ [] ∧ (place, .file content executable) ∈ t.entries := by
  obtain ⟨place, content, executable, hfind, hentry⟩ := isFile_iff.mp h
  have hne : place ≠ [] := by
    -- At the top there is a directory.
    rintro rfl
    unfold entry? at hentry
    rw [if_pos rfl] at hentry
    cases hentry
  exact ⟨place, content, executable, hfind, hne, mem_entries_of_some hne hentry⟩

theorem isAbsolute_of_isFile (h : t.isFile p = true) : p.isAbsolute = true := by
  obtain ⟨_, _, _, hfind, _⟩ := exists_find_of_isFile h
  exact isAbsolute_of_find hfind

theorem followWith_of_isNoise {onLink : Place → List RawText → Except AccessError Place}
    {segments : List RawText} (h : ∀ segment ∈ segments, Path.isNoise segment = true) :
    t.followWith onLink [] segments = .ok [] := by
  have htop : t.entry? [] = some .dir := rfl
  induction segments with
  | nil => rfl
  | cons segment rest ih =>
    obtain ⟨hsegment, hrest⟩ := List.forall_mem_cons.mp h
    have hstay : segment = [] ∨ segment = [dot] := by simpa [Path.isNoise] using hsegment
    simp only [followWith, htop, if_pos hstay]
    exact ih hrest

/-- An absolute path with nothing above it leads to the top. -/
theorem find_of_parent?_eq_none (hp : p.isAbsolute = true) (h : p.parent? = none) :
    t.find p = .ok [] := by
  rw [find, if_pos hp]
  obtain ⟨rest, rfl⟩ := Path.exists_raw_of_isAbsolute hp
  unfold Path.parent? at h
  rw [Path.split_slash] at h
  dsimp only at h
  split at h
  · next hnoise =>
    rw [Path.segments_slash]
    refine followWith_of_isNoise (List.forall_mem_cons.mpr ⟨rfl, ?_⟩)
    exact List.rdropWhile_eq_nil_iff.mp hnoise
  · cases h

/-- A file lies in a directory. -/
theorem exists_parent_of_isFile (h : t.isFile p = true) : ∃ dir, p.parent? = some dir := by
  obtain ⟨place, _, _, hfind, hne, _⟩ := exists_find_of_isFile h
  refine Option.ne_none_iff_exists'.mp fun hnone => hne ?_
  rw [find_of_parent?_eq_none (isAbsolute_of_isFile h) hnone] at hfind
  exact (Except.ok.inj hfind).symm

/-- The names that the path of a file ends with are those that its place ends with. -/
theorem exists_place_of_isFile (hlinks : t.LinkFree) (h : t.isFile p = true)
    {lead : List Component} {names : List RawText}
    (hp : p.components = lead ++ names.map Component.name) :
    ∃ place ∈ t.entries.map Prod.fst, names <:+ place := by
  obtain ⟨place, content, executable, hfind, _, hmem⟩ := exists_find_of_isFile h
  refine ⟨place, List.mem_map.mpr ⟨_, hmem, rfl⟩, lead.foldl walk [], ?_⟩
  rw [find_eq_foldl_walk hlinks hfind, hp, List.foldl_append, foldl_walk_names]

end FileTree

end Typesweep
