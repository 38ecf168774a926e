import Typesweep.FileTree.Walk
import Typesweep.Proofs.Path.Normal

/-!
# What walks find

A walk finds files below its start only, so a directory that is not entered makes a difference
only if a file below it is of interest.

* `NamesProper`: the names in a tree are those of entries.
* `mem_names_iff`: the names in a directory.
* `isAbove_of_mem_filesInside`: where the files lie that a walk finds.
* `filter_filesInside_congr`, `filter_filesBelow_congr`: walks that differ only where no file of
  interest lies.
-/

namespace Typesweep.FileTree

variable {t : FileTree} {enter enter' : Path → Text → Bool} {keep : Path → Bool} {here : Place}
  {inside : List Place} {depth : Nat} {path file : Path} {name : RawText}

/-- No name in the tree is empty, holds a slash or is `.` or `..`. -/
def NamesProper (t : FileTree) : Prop :=
  ∀ e ∈ t.entries, ∀ name ∈ e.1, (Component.name name).Proper

instance : DecidablePred NamesProper := fun t =>
  inferInstanceAs (Decidable (∀ e ∈ t.entries, ∀ name ∈ e.1, (Component.name name).Proper))

theorem eq_append_of_nameIn? {p q : Place} (h : nameIn? p q = some name) : q = p ++ [name] := by
  fun_induction nameIn? p q with
  | case1 n =>
    obtain rfl := Option.some.inj h
    rfl
  | case2 p b q ih => rw [ih h, List.cons_append]
  | case3 | case4 => cases h

theorem nameIn?_append (place : Place) (name : RawText) :
    nameIn? place (place ++ [name]) = some name := by
  induction place with
  | nil => rfl
  | cons first place ih => rw [List.cons_append, nameIn?, if_pos rfl, ih]

/-! ## Names in a directory -/

theorem mem_names_iff : name ∈ t.names here ↔ ∃ e ∈ t.entries, e.1 = here ++ [name] := by
  rw [names, List.mem_eraseDups, List.mem_filterMap]
  constructor
  · rintro ⟨e, he, heq⟩
    exact ⟨e, he, eq_append_of_nameIn? heq⟩
  · rintro ⟨e, he, heq⟩
    exact ⟨e, he, heq ▸ nameIn?_append here name⟩

theorem mem_names_iff_ne_none : name ∈ t.names here ↔ t.entry? (here ++ [name]) ≠ none := by
  rw [mem_names_iff, entry?, if_neg (by simp), ne_eq, List.lookup_eq_none_iff]
  simp only [bne_iff_ne, ne_eq, not_forall, not_not, exists_prop]
  exact exists_congr fun e => and_congr_right fun _ => eq_comm

theorem mem_names_of_entry? {entry : Entry} (h : t.entry? (here ++ [name]) = some entry) :
    name ∈ t.names here :=
  mem_names_iff_ne_none.mpr (h ▸ Option.some_ne_none entry)

theorem NamesProper.of_mem_names (h : t.NamesProper) (hname : name ∈ t.names here) :
    (Component.name name).Proper := by
  obtain ⟨e, he, heq⟩ := mem_names_iff.mp hname
  refine h e he name ?_
  rw [heq]
  exact List.mem_append_right here (List.mem_singleton_self name)

/-! ## Files -/

theorem isAbove_of_mem_filesInside (hproper : t.NamesProper)
    (h : file ∈ t.filesInside enter depth inside here path) : path.IsAbove file := by
  induction depth generalizing inside here path with
  | zero => exact absurd h List.not_mem_nil
  | succ depth ih =>
    obtain ⟨name, hname, hfile⟩ := List.mem_flatMap.mp h
    have hchild : path.IsAbove (path.child name) :=
      Path.isAbove_child (hproper.of_mem_names hname) path
    dsimp only at hfile
    split at hfile
    · exact absurd hfile List.not_mem_nil
    · split at hfile
      · exact List.mem_singleton.mp hfile ▸ hchild
      · split at hfile
        · exact absurd hfile List.not_mem_nil
        · split at hfile
          · exact hchild.trans (ih hfile)
          · exact absurd hfile List.not_mem_nil
      · exact absurd hfile List.not_mem_nil

theorem eq_or_isAbove_of_mem_filesBelow (hproper : t.NamesProper)
    (h : file ∈ t.filesBelow enter path) : file = path ∨ path.IsAbove file := by
  unfold filesBelow at h
  split at h
  · exact absurd h List.not_mem_nil
  · split at h
    · exact .inl (List.mem_singleton.mp h)
    · exact .inr (isAbove_of_mem_filesInside hproper h)
    · exact absurd h List.not_mem_nil

/-- The paths that a walk finds are normal if its start is. -/
theorem isNormal_of_mem_filesBelow (hproper : t.NamesProper) (hpath : path.IsNormal)
    (h : file ∈ t.filesBelow enter path) : file.IsNormal := by
  rcases eq_or_isAbove_of_mem_filesBelow hproper h with rfl | hbelow
  · exact hpath
  · exact hpath.of_isAbove hbelow

/-- A walk from a relative path has no tree to walk in. -/
theorem filesBelow_of_relative (h : path.isAbsolute = false) : t.filesBelow enter path = [] := by
  have hfind : t.find path = .error .notFound := by
    rw [find, h, if_neg Bool.false_ne_true]
  rw [filesBelow, hfind]

theorem isAbsolute_of_mem_filesBelow (h : file ∈ t.filesBelow enter path) :
    path.isAbsolute = true := by
  by_contra hrelative
  rw [filesBelow_of_relative (Bool.eq_false_iff.mpr hrelative)] at h
  cases h

/-- Walks that differ only in directories without files of interest find the same of these. -/
theorem filter_filesInside_congr (hproper : t.NamesProper)
    (h : ∀ dir name, path.IsAbove dir → enter dir name ≠ enter' dir name →
      ∀ file, dir.IsAbove file → keep file = false) :
    (t.filesInside enter depth inside here path).filter keep =
      (t.filesInside enter' depth inside here path).filter keep := by
  induction depth generalizing inside here path with
  | zero => rfl
  | succ depth ih =>
    rw [filesInside, filesInside, List.filter_flatMap, List.filter_flatMap]
    refine List.flatMap_congr fun name hname => ?_
    have hchild : path.IsAbove (path.child name) :=
      Path.isAbove_child (hproper.of_mem_names hname) path
    dsimp only
    split
    · rfl
    · next place _ =>
      split
      · rfl
      · split
        · rfl
        · by_cases hsame : enter (path.child name) (Text.ofBytes name) =
              enter' (path.child name) (Text.ofBytes name)
          · rw [hsame]
            split
            · exact ih fun dir other hdir => h dir other (hchild.trans hdir)
            · rfl
          · -- One of the two walks passes the directory over; the other finds nothing in it.
            have hnone : ∀ enter'', (t.filesInside enter'' depth (place :: inside) place
                (path.child name)).filter keep = [] := fun enter'' =>
              List.filter_eq_nil_iff.mpr fun file hfile => by
                simpa using h _ _ hchild hsame file (isAbove_of_mem_filesInside hproper hfile)
            split <;> split <;> simp [hnone]
      · rfl

theorem filter_filesBelow_congr (hproper : t.NamesProper)
    (h : ∀ dir name, path.IsAbove dir → enter dir name ≠ enter' dir name →
      ∀ file, dir.IsAbove file → keep file = false) :
    (t.filesBelow enter path).filter keep = (t.filesBelow enter' path).filter keep := by
  unfold filesBelow
  split
  · rfl
  · split
    · rfl
    · exact filter_filesInside_congr hproper h
    · rfl

end Typesweep.FileTree
