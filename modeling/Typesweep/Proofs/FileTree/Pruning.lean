import Mathlib.Data.List.Flatten
import Typesweep.Path.WellKnown
import Typesweep.Proofs.FileTree.Removal

/-!
# Pruned walks

A walk that passes over some directories finds what the walk that enters them finds, but for the
files below these directories. No walk finds a path twice.

* `walkedFiles`: the walk that enters all directories it ever enters.
* `mem_walkedFiles_iff_of_linkFree`: what it finds in a tree without links.
* `mem_filesBelow_and_iff`: what is left of a walk.
* `filesBelow_sublist`: a walk that enters fewer directories of the tree.
* `nodup_filesBelow`: each path once.
-/

namespace Typesweep.FileTree

variable {t : FileTree} {enter : Path → Text → Bool} {keep : Path → Bool} {depth : Nat}
  {inside : List Place} {here : Place} {path start file : Path}

/-- The files at or below a path, found by a walk that passes over only what is never walked. -/
def walkedFiles (t : FileTree) (start : Path) : List Path :=
  t.filesBelow (fun _ name => !isNeverWalked name) start

theorem mem_filesInside_and_iff (hnames : t.NamesProper) (hpath : path.isAbsolute = true) :
    file ∈ t.filesInside (fun dir name => enter dir name && keep dir) depth inside here path ↔
      file ∈ t.filesInside enter depth inside here path ∧
        ∀ dir, path.IsAbove dir → dir.IsAbove file → keep dir = true := by
  induction depth generalizing inside here path with
  | zero => simp [filesInside]
  | succ depth ih =>
    rw [mem_filesInside_succ_iff, mem_filesInside_succ_iff]
    refine ⟨?_, ?_⟩
    · rintro ⟨name, hname, found, hfind, ⟨rfl, hentry⟩ | ⟨hdir, hlink, henter, hmem⟩⟩
      · refine ⟨⟨name, hname, found, hfind, .inl ⟨rfl, hentry⟩⟩, fun dir hdir hbelow => ?_⟩
        have hself := (hdir.eq_child_or_isAbove hpath (hnames.of_mem_names hname) hbelow
          (.inl rfl)).1
        exact absurd hself (Path.not_isAbove_self (Path.isAbsolute_child hpath name))
      · obtain ⟨henter, hchild⟩ := Bool.and_eq_true_iff.mp henter
        obtain ⟨hmem, hkeep⟩ := (ih (Path.isAbsolute_child hpath name)).mp hmem
        refine ⟨⟨name, hname, found, hfind, .inr ⟨hdir, hlink, henter, hmem⟩⟩,
          fun dir hdir hbelow => ?_⟩
        obtain ⟨-, rfl | hdir⟩ := hdir.eq_child_or_isAbove hpath (hnames.of_mem_names hname) hbelow
          (.inr (isAbove_of_mem_filesInside hnames hmem))
        · exact hchild
        · exact hkeep dir hdir hbelow
    · rintro ⟨⟨name, hname, found, hfind, hfile | ⟨hdir, hlink, henter, hmem⟩⟩, hkeep⟩
      · exact ⟨name, hname, found, hfind, .inl hfile⟩
      · have hchild : path.IsAbove (path.child name) :=
          Path.isAbove_child (hnames.of_mem_names hname) path
        have hbelow := isAbove_of_mem_filesInside hnames hmem
        refine ⟨name, hname, found, hfind, .inr ⟨hdir, hlink, ?_, ?_⟩⟩
        · exact Bool.and_eq_true_iff.mpr ⟨henter, hkeep _ hchild hbelow⟩
        · exact (ih (Path.isAbsolute_child hpath name)).mpr
            ⟨hmem, fun dir hdir => hkeep dir (hchild.trans hdir)⟩

/-- A walk that passes over more directories finds no file below these, and else the same. -/
theorem mem_filesBelow_and_iff (hnames : t.NamesProper) (hstart : start.isAbsolute = true) :
    file ∈ t.filesBelow (fun dir name => enter dir name && keep dir) start ↔
      file ∈ t.filesBelow enter start ∧
        ∀ dir, start.IsAbove dir → dir.IsAbove file → keep dir = true := by
  unfold filesBelow
  cases t.find start with
  | error e => simp
  | ok found =>
    dsimp only
    split
    · -- The start is a file, and nothing lies between it and itself.
      refine ⟨fun h => ⟨h, fun dir hdir hbelow => ?_⟩, And.left⟩
      rw [List.mem_singleton.mp h] at hbelow
      exact absurd (hdir.trans hbelow) (Path.not_isAbove_self hstart)
    · exact mem_filesInside_and_iff hnames hstart
    · simp

theorem nodup_eraseDups {α : Type} [BEq α] [LawfulBEq α] (as : List α) : as.eraseDups.Nodup := by
  induction hlength : as.length using Nat.strong_induction_on generalizing as with
  | h length ih =>
    cases as with
    | nil => exact List.nodup_nil
    | cons a as =>
      rw [List.eraseDups_cons, List.nodup_cons, List.mem_eraseDups]
      refine ⟨by simp, ih _ ?_ _ rfl⟩
      rw [← hlength, List.length_cons]
      exact Nat.lt_succ_of_le (List.length_filter_le _ as)

/-- What a walk finds at one name in a directory. -/
def filesAt (t : FileTree) (enter : Path → Text → Bool) (depth : Nat) (inside : List Place)
    (here : Place) (path : Path) (name : RawText) : List Path :=
  let child := path.child name
  match t.find child with
  | .error _ => []
  | .ok place =>
    match t.entry? place with
    | some (.file ..) => [child]
    | some .dir =>
      let isLink := place != here ++ [name]
      if isLink && inside.contains place then []
      else if enter child (Text.ofBytes name) then
        filesInside t enter depth (place :: inside) place child
      else []
    | _ => []

theorem filesInside_eq_flatMap (t : FileTree) (enter : Path → Text → Bool) (depth : Nat)
    (inside : List Place) (here : Place) (path : Path) :
    t.filesInside enter (depth + 1) inside here path =
      (t.names here).flatMap (t.filesAt enter depth inside here path) :=
  rfl

theorem filesAt_cases (t : FileTree) (enter : Path → Text → Bool) (depth : Nat)
    (inside : List Place) (here : Place) (path : Path) (name : RawText) :
    t.filesAt enter depth inside here path name = [] ∨
      t.filesAt enter depth inside here path name = [path.child name] ∨
        ∃ place, t.filesAt enter depth inside here path name =
          t.filesInside enter depth (place :: inside) place (path.child name) := by
  unfold filesAt
  dsimp only
  split
  · exact .inl rfl
  · next place _ =>
    split
    · exact .inr (.inl rfl)
    · split
      · exact .inl rfl
      · split
        · exact .inr (.inr ⟨place, rfl⟩)
        · exact .inl rfl
    · exact .inl rfl

theorem exists_under_of_mem_filesAt (hnames : t.NamesProper) {name : RawText}
    (hname : name ∈ t.names here) (h : file ∈ t.filesAt enter depth inside here path name) :
    ∃ names : List RawText, (∀ other ∈ name :: names, (Component.name other).Proper) ∧
      file = path.under (name :: names) := by
  have hproper := hnames.of_mem_names hname
  rcases t.filesAt_cases enter depth inside here path name with heq | heq | ⟨place, heq⟩
  · rw [heq] at h
    exact absurd h List.not_mem_nil
  · rw [heq] at h
    exact ⟨[], List.forall_mem_singleton.mpr hproper, List.mem_singleton.mp h⟩
  · rw [heq] at h
    obtain ⟨names, -, hbelow, hfile⟩ := isAbove_of_mem_filesInside hnames h
    exact ⟨names, List.forall_mem_cons.mpr ⟨hproper, hbelow⟩, hfile⟩

theorem nodup_filesInside (hnames : t.NamesProper) (hpath : path.isAbsolute = true) :
    (t.filesInside enter depth inside here path).Nodup := by
  induction depth generalizing inside here path with
  | zero => exact List.nodup_nil
  | succ depth ih =>
    have hdistinct : (t.names here).Nodup := nodup_eraseDups _
    rw [filesInside_eq_flatMap, List.nodup_flatMap]
    refine ⟨fun name _ => ?_, hdistinct.pairwise_of_forall_ne ?_⟩
    · rcases t.filesAt_cases enter depth inside here path name with heq | heq | ⟨place, heq⟩
      · rw [heq]
        exact List.nodup_nil
      · rw [heq]
        exact List.nodup_singleton _
      · rw [heq]
        exact ih (Path.isAbsolute_child hpath name)
    · -- What is found at a name starts with this name.
      intro name hname other hother hne file hfile hfile'
      obtain ⟨names, hproper, heq⟩ := exists_under_of_mem_filesAt hnames hname hfile
      obtain ⟨names', hproper', heq'⟩ := exists_under_of_mem_filesAt hnames hother hfile'
      exact hne (List.cons.inj
        (Path.under_inj hpath hproper hproper' (heq.symm.trans heq'))).1

/-- A walk takes only one way to each path. -/
theorem nodup_filesBelow (hnames : t.NamesProper) (hstart : start.isAbsolute = true) :
    (t.filesBelow enter start).Nodup := by
  unfold filesBelow
  split
  · exact List.nodup_nil
  · split
    · exact List.nodup_singleton _
    · exact nodup_filesInside hnames hstart
    · exact List.nodup_nil

theorem filesInside_sublist {enter' : Path → Text → Bool}
    (h : ∀ dir name, t.isDir dir = true → enter dir name = true → enter' dir name = true) :
    (t.filesInside enter depth inside here path).Sublist
      (t.filesInside enter' depth inside here path) := by
  induction depth generalizing inside here path with
  | zero => exact List.Sublist.refl []
  | succ depth ih =>
    rw [filesInside_eq_flatMap, filesInside_eq_flatMap]
    refine List.Sublist.flatMap_right _ fun name _ => ?_
    unfold filesAt
    dsimp only
    split
    · exact List.Sublist.refl []
    · next place hfind =>
      split
      · exact List.Sublist.refl _
      · next hentry =>
        split
        · exact List.Sublist.refl []
        · by_cases henter : enter (path.child name) (Text.ofBytes name) = true
          · rw [if_pos henter, if_pos (h _ _ (isDir_iff.mpr ⟨place, hfind, hentry⟩) henter)]
            exact ih
          · rw [if_neg henter]
            exact List.nil_sublist _
      · exact List.Sublist.refl []

/-- A walk that enters fewer of the directories of the tree leaves files out and keeps the others in
order. -/
theorem filesBelow_sublist {enter' : Path → Text → Bool}
    (h : ∀ dir name, t.isDir dir = true → enter dir name = true → enter' dir name = true) :
    (t.filesBelow enter start).Sublist (t.filesBelow enter' start) := by
  unfold filesBelow
  split
  · exact List.Sublist.refl []
  · split
    · exact List.Sublist.refl _
    · exact filesInside_sublist h
    · exact List.Sublist.refl []

/-! ## Walks in trees without links -/

theorem isDir_of_find_under (hp : path.IsTidy) {names : List RawText} (hne : names ≠ [])
    (hnames : ∀ name ∈ names, (Component.name name).Proper) {found : Place}
    (h : t.find (path.under names) = .ok found) : t.isDir path = true := by
  induction names generalizing path found with
  | nil => exact absurd rfl hne
  | cons name rest ih =>
    obtain ⟨hname, hrest⟩ := List.forall_mem_cons.mp hnames
    by_cases hnil : rest = []
    · subst hnil
      exact isDir_of_find_child hp hname h
    · obtain ⟨place, hfind, -⟩ := isDir_iff.mp (ih (hp.child hname) hnil hrest h)
      exact isDir_of_find_child hp hname hfind

theorem LinkFree.find_child_eq (hlinks : t.LinkFree) (hp : path.IsTidy) {name : RawText}
    (hname : (Component.name name).Proper) (h : t.find path = .ok here) {found : Place}
    (hchild : t.find (path.child name) = .ok found) : found = here ++ [name] := by
  rw [find_eq_foldl_walk hlinks hchild, Path.components_child_of_proper hp.isAbsolute hname,
    List.foldl_append, ← find_eq_foldl_walk hlinks h]
  rfl

theorem mem_filesInside_iff_of_linkFree (hlinks : t.LinkFree) (hproper : t.NamesProper)
    (passes : Text → Bool) (hp : path.IsTidy) (h : t.find path = .ok here)
    (hroom : t.room inside here < depth) :
    file ∈ t.filesInside (fun _ name => passes name) depth inside here path ↔
      t.isFile file = true ∧ ∃ (names : List RawText) (name : RawText),
        (∀ other ∈ names ++ [name], (Component.name other).Proper) ∧
          file = path.under (names ++ [name]) ∧
            ∀ other ∈ names, passes (Text.ofBytes other) = true := by
  induction depth generalizing inside here path with
  | zero => exact absurd hroom (Nat.not_lt_zero _)
  | succ depth ih =>
    rw [mem_filesInside_succ_iff]
    constructor
    · rintro ⟨name, hname, found, hfind, ⟨rfl, hentry⟩ | ⟨hdir, -, hpasses, hmem⟩⟩
      · obtain ⟨content, executable, hentry⟩ := hentry
        exact ⟨isFile_iff.mpr ⟨found, content, executable, hfind, hentry⟩, [], name,
          List.forall_mem_singleton.mpr (hproper.of_mem_names hname), rfl, nofun⟩
      · obtain rfl := hlinks.find_child_eq hp (hproper.of_mem_names hname) h hfind
        have hless : t.room ((here ++ [name]) :: inside) (here ++ [name]) < t.room inside here :=
          room_lt_of_step hdir
        obtain ⟨hfile, names, last, hnames, rfl, hall⟩ :=
          (ih (hp.child (hproper.of_mem_names hname)) hfind (by omega)).mp hmem
        exact ⟨hfile, name :: names, last,
          List.forall_mem_cons.mpr ⟨hproper.of_mem_names hname, hnames⟩, rfl,
          List.forall_mem_cons.mpr ⟨hpasses, hall⟩⟩
    · rintro ⟨hfile, names, last, hnames, rfl, hpasses⟩
      cases names with
      | nil =>
        have hlast := hnames last (List.mem_singleton_self _)
        obtain ⟨found, content, executable, hfind, hentry⟩ := isFile_iff.mp hfile
        obtain rfl := hlinks.find_child_eq hp hlast h hfind
        exact ⟨last, mem_names_of_entry? hentry, _, hfind,
          .inl ⟨rfl, content, executable, hentry⟩⟩
      | cons name names =>
        obtain ⟨hname, hrest⟩ := List.forall_mem_cons.mp hnames
        obtain ⟨found, -, -, hfound, -⟩ := isFile_iff.mp hfile
        obtain ⟨place, hfind, hdir⟩ :=
          isDir_iff.mp (isDir_of_find_under (hp.child hname) (by simp) hrest hfound)
        obtain rfl := hlinks.find_child_eq hp hname h hfind
        have hless : t.room ((here ++ [name]) :: inside) (here ++ [name]) < t.room inside here :=
          room_lt_of_step hdir
        refine ⟨name, mem_names_of_entry? hdir, _, hfind,
          .inr ⟨hdir, fun hne => absurd rfl hne, hpasses name List.mem_cons_self, ?_⟩⟩
        exact (ih (hp.child hname) hfind (by omega)).mpr ⟨hfile, names, last, hrest, rfl,
          fun other hother => hpasses other (List.mem_cons_of_mem name hother)⟩

/-- In a tree without links a walk finds every file below its start that lies in no directory that
is never walked. -/
theorem mem_walkedFiles_iff_of_linkFree (hlinks : t.LinkFree) (hproper : t.NamesProper)
    (hstart : start.IsTidy) :
    file ∈ t.walkedFiles start ↔ t.isFile file = true ∧ (file = start ∨
      ∃ (names : List RawText) (name : RawText),
        (∀ other ∈ names ++ [name], (Component.name other).Proper) ∧
          file = start.under (names ++ [name]) ∧
            ∀ other ∈ names, isNeverWalked (Text.ofBytes other) = false) := by
  have hdir : ∀ (names : List RawText) (name : RawText),
      (∀ other ∈ names ++ [name], (Component.name other).Proper) →
        t.isFile (start.under (names ++ [name])) = true → t.isDir start = true := by
    intro names name hnames hfile
    obtain ⟨found, -, -, hfound, -⟩ := isFile_iff.mp hfile
    exact isDir_of_find_under hstart (by simp) hnames hfound
  rw [isDir_iff] at hdir
  constructor
  · intro h
    obtain ⟨found, content, executable, hfind, hentry⟩ := exists_find_of_mem_filesBelow h
    refine ⟨isFile_iff.mpr ⟨found, content, executable, hfind, hentry⟩, ?_⟩
    unfold walkedFiles filesBelow at h
    split at h
    · exact absurd h List.not_mem_nil
    · next here hhere =>
      split at h
      · exact .inl (List.mem_singleton.mp h)
      · right
        simpa using ((mem_filesInside_iff_of_linkFree hlinks hproper
          (fun name => !isNeverWalked name) hstart hhere (t.room_lt_walkDepth _ _)).mp h).2
      · exact absurd h List.not_mem_nil
  · rintro ⟨hfile, rfl | ⟨names, name, hnames, rfl, hwalked⟩⟩
    · obtain ⟨place, content, executable, hfind, hentry⟩ := isFile_iff.mp hfile
      simp only [walkedFiles, filesBelow, hfind, hentry, List.mem_singleton]
    · obtain ⟨here, hhere, hentry⟩ := hdir names name hnames hfile
      simp only [walkedFiles, filesBelow, hhere, hentry]
      exact (mem_filesInside_iff_of_linkFree hlinks hproper (fun name => !isNeverWalked name)
        hstart hhere (t.room_lt_walkDepth _ _)).mpr
          ⟨hfile, names, name, hnames, rfl, by simpa using hwalked⟩

end Typesweep.FileTree
