import Typesweep.Checker
import Typesweep.Proofs.FileTree.Spelling
import Typesweep.Proofs.Path.Above

/-!
# The nearest checker

A project is checked by the checker that is installed nearest above it. Directories of installed
packages that lack the checker, or hold something else in its place, are passed over. A project at
or below the working directory has all directories of that one above it. So if the global checker
was found from there, one is found for the project too, in the same directory or nearer.

The search goes by the spelling of the path it starts from, and the project may be spelled
differently from the working directory. That makes no difference to what is found in a directory.

* `Path.installed`: where an executable is if it is installed in a directory.
* `IsNearest`: the nearest directory above a path with an executable installed.
* `isNearest_iff_find?`: it is what the search stops at.
* `locate?_nearest`: the main result.
-/

namespace Typesweep

open Typesweep.Path

/-- The path of an executable among the packages that are installed in a directory. -/
def Path.installed (dir below : Path) : Path :=
  (dir.child packagesName).join below

namespace FileTree

variable {t : FileTree} {start below dir other found : Path}

/-- In `dir` the executable is installed as a file, and `dir` is the nearest one to `start` of the
directories at or above it where it is. -/
structure IsNearest (t : FileTree) (start below dir : Path) : Prop where
  mem_ancestors : dir ∈ start.ancestors
  isFile : t.isFile (dir.installed below) = true
  nearest : ∀ other : Path, other.isAbsolute = true → other.Encloses start →
    t.isFile (other.installed below) = true → other.Encloses dir

/-! ## Installed executables -/

/-- How a directory is spelled makes no difference to what is installed in it. -/
theorem isFile_installed_congr (hdir : dir.isAbsolute = true) (hsame : dir.Same other)
    (hbelow : below.isAbsolute = false) :
    t.isFile (dir.installed below) = t.isFile (other.installed below) := by
  refine isFile_join_congr (isAbsolute_child hdir _) ?_ hbelow
  rw [Same, components_child hdir (by decide) (by decide),
    components_child (hsame.isAbsolute hdir) (by decide) (by decide),
    show dir.components = other.components from hsame]

/-- A directory with an executable installed has a directory of packages. -/
theorem packagesName_mem_listing (hdir : dir.isAbsolute = true) (hbelow : below.isAbsolute = false)
    (h : t.isFile (dir.installed below) = true) :
    Text.ofBytes packagesName ∈ t.listing dir := by
  obtain ⟨place, -, -, hfind, -⟩ := isFile_iff.mp h
  exact mem_listing_of_find_join hdir (by decide) (by decide) hbelow hfind

/-! ## The search -/

/-- Only one directory is the nearest. -/
theorem IsNearest.eq {dir' : Path} (hstart : start.isAbsolute = true)
    (h : t.IsNearest start below dir) (h' : t.IsNearest start below dir') : dir = dir' := by
  obtain ⟨hdir, hencloses⟩ := prefix_of_mem_ancestors hstart h.mem_ancestors
  obtain ⟨hdir', hencloses'⟩ := prefix_of_mem_ancestors hstart h'.mem_ancestors
  exact eq_of_mem_ancestors hstart h.mem_ancestors h'.mem_ancestors
    ((h'.nearest dir hdir hencloses h.isFile).antisymm (h.nearest dir' hdir' hencloses' h'.isFile))

section Search

variable (hstart : start.isAbsolute = true) (hbelow : below.isAbsolute = false)

include hstart hbelow

/-- The search goes to the first directory with the executable. -/
theorem locate?_eq_find? : t.locate? start below =
    (start.ancestors.find? fun dir => t.isFile (dir.installed below)).map (·.installed below) := by
  rw [locate?, upward, List.findSome?_map]
  have habsolute : ∀ dir ∈ start.ancestors, dir.isAbsolute = true := fun dir hdir =>
    (prefix_of_mem_ancestors hstart hdir).1
  generalize start.ancestors = dirs at habsolute ⊢
  induction dirs with
  | nil => rfl
  | cons dir dirs ih =>
    obtain ⟨hdir, hdirs⟩ := List.forall_mem_cons.mp habsolute
    have hlisted : t.isFile (dir.installed below) = true →
        (t.listing dir).contains (Text.ofBytes packagesName) = true := fun hfile =>
      List.contains_iff_mem.mpr (packagesName_mem_listing hdir hbelow hfile)
    rw [List.findSome?_cons, List.find?_cons, ih hdirs, Function.comp_apply]
    dsimp only
    rw [show (dir.child packagesName).join below = dir.installed below from rfl]
    cases hfile : t.isFile (dir.installed below) with
    | true => rw [hlisted hfile]; rfl
    | false => rw [Bool.and_false]; rfl

theorem isNearest_of_find?
    (h : (start.ancestors.find? fun dir => t.isFile (dir.installed below)) = some dir) :
    t.IsNearest start below dir := by
  obtain ⟨hfile, before, after, heq, hbefore⟩ := List.find?_eq_some_iff_append.mp h
  have hmem : dir ∈ start.ancestors := List.mem_of_find?_eq_some h
  refine ⟨hmem, hfile, fun other hother hencloses hinstalled => ?_⟩
  obtain ⟨same, hsame, hspelled⟩ := exists_mem_ancestors hother hencloses
  have hle : other.components.length ≤ dir.components.length := by
    rw [← show same.components = other.components from hspelled]
    have horder := ancestors_pairwise hstart
    rw [heq] at hsame horder
    -- The search has passed over what is before `dir`, and what is after it is shorter.
    rcases List.mem_append.mp hsame with hpassed | hrest
    · have hnone : t.isFile (same.installed below) = false := by simpa using hbefore same hpassed
      rw [← isFile_installed_congr hother (Eq.symm hspelled) hbelow, hinstalled] at hnone
      cases hnone
    · rcases List.mem_cons.mp hrest with rfl | hafter
      · exact Nat.le_refl _
      · have hshorter := (List.pairwise_cons.mp (List.pairwise_append.mp horder).2.1).1
        exact Nat.le_of_lt (hshorter same hafter)
  exact hencloses.of_length_le (prefix_of_mem_ancestors hstart hmem).2 hle

theorem isNearest_iff_find? : t.IsNearest start below dir ↔
    (start.ancestors.find? fun dir => t.isFile (dir.installed below)) = some dir := by
  refine ⟨fun h => ?_, isNearest_of_find? hstart hbelow⟩
  obtain ⟨dir', hfind⟩ : ∃ dir',
      (start.ancestors.find? fun dir => t.isFile (dir.installed below)) = some dir' :=
    Option.isSome_iff_exists.mp (List.find?_isSome.mpr ⟨dir, h.mem_ancestors, h.isFile⟩)
  rw [hfind, h.eq hstart (isNearest_of_find? hstart hbelow hfind)]

theorem locate?_eq_some_iff : t.locate? start below = some found ↔
    ∃ dir, t.IsNearest start below dir ∧ found = dir.installed below := by
  rw [locate?_eq_find? hstart hbelow, Option.map_eq_some_iff]
  simp only [isNearest_iff_find? hstart hbelow, eq_comm]

theorem locate?_eq_none_iff : t.locate? start below = none ↔
    ∀ dir : Path, dir.isAbsolute = true → dir.Encloses start →
      t.isFile (dir.installed below) = false := by
  rw [locate?_eq_find? hstart hbelow, Option.map_eq_none_iff, List.find?_eq_none]
  simp only [Bool.not_eq_true]
  constructor
  · intro h dir hdir hencloses
    obtain ⟨same, hmem, hspelled⟩ := exists_mem_ancestors hdir hencloses
    rw [isFile_installed_congr hdir (Eq.symm hspelled) hbelow]
    exact h same hmem
  · intro h dir hmem
    obtain ⟨hdir, hencloses⟩ := prefix_of_mem_ancestors hstart hmem
    exact h dir hdir hencloses

/-- What is found from a path is found from every path below it too, or something nearer is. -/
theorem IsNearest.exists_below {inner : Path} (hinner : start.Encloses inner)
    (h : t.IsNearest start below dir) :
    ∃ dir', t.IsNearest inner below dir' ∧ dir.Encloses dir' := by
  obtain ⟨hdir, hencloses⟩ := prefix_of_mem_ancestors hstart h.mem_ancestors
  have hinside : dir.Encloses inner := Encloses.trans hencloses hinner
  have habsolute : inner.isAbsolute = true := hinner.isAbsolute hstart
  have hsome : t.locate? inner below ≠ none := fun hnone => by
    have hfile := (locate?_eq_none_iff habsolute hbelow).mp hnone dir hdir hinside
    rw [h.isFile] at hfile
    cases hfile
  obtain ⟨found, hfound⟩ := Option.ne_none_iff_exists'.mp hsome
  obtain ⟨dir', hnearest, -⟩ := (locate?_eq_some_iff habsolute hbelow).mp hfound
  exact ⟨dir', hnearest, hnearest.nearest dir hdir hinside h.isFile⟩

end Search

/-! ## The checker of a project -/

/-- A search finds the executable in the nearest directory where it is installed, and nothing only
if it is installed nowhere above. So if the global checker was found from the working directory, a
project there or below is checked by one that is found for it, at least as near as the global
one. -/
theorem locate?_nearest (t : FileTree) :
    (∀ start below : Path, start.isAbsolute = true → below.isAbsolute = false →
      (∀ found, t.locate? start below = some found ↔
        ∃ dir, t.IsNearest start below dir ∧ found = dir.installed below) ∧
      (t.locate? start below = none ↔ ∀ dir : Path, dir.isAbsolute = true →
        dir.Encloses start → t.isFile (dir.installed below) = false)) ∧
    ∀ (c : Checker) (project : Project), c.cwd.isAbsolute = true →
      c.cwd.Encloses project.dir → t.locate? c.cwd checkerPath = some c.binary →
        ∃ dir dir', t.IsNearest c.cwd checkerPath dir ∧ c.binary = dir.installed checkerPath ∧
          t.IsNearest project.dir checkerPath dir' ∧ dir.Encloses dir' ∧
          t.locate? project.dir checkerPath = some (c.binaryFor t project) ∧
          c.binaryFor t project = dir'.installed checkerPath := by
  refine ⟨fun start below hstart hbelow => ⟨fun found => locate?_eq_some_iff hstart hbelow,
    locate?_eq_none_iff hstart hbelow⟩, fun c project hcwd hproject hglobal => ?_⟩
  have hchecker : checkerPath.isAbsolute = false := rfl
  obtain ⟨dir, hdir, hbinary⟩ := (locate?_eq_some_iff hcwd hchecker).mp hglobal
  obtain ⟨dir', hdir', hencloses⟩ := hdir.exists_below hcwd hchecker hproject
  have hlocated : t.locate? project.dir checkerPath = some (dir'.installed checkerPath) :=
    (locate?_eq_some_iff (hproject.isAbsolute hcwd) hchecker).mpr ⟨dir', hdir', rfl⟩
  have hown : c.binaryFor t project = dir'.installed checkerPath := by
    rw [Checker.binaryFor, hlocated]
    rfl
  exact ⟨dir, dir', hdir, hbinary, hdir', hencloses, hown ▸ hlocated, hown⟩

/-- Packages installed in three directories, one in the other. In the middle one a directory stands
where the checker should be; the packages of the innermost one are shared with others, by a link. -/
def nestedPackages : FileTree :=
  let packages : Place := [.ofString "w", packagesName]
  let broken : Place := [.ofString "w", .ofString "pkg", packagesName]
  let shared : Place := [.ofString "w", .ofString "shared"]
  ⟨[(packages ++ [.ofString ".bin", .ofString "tsc"], .file [] true),
    (packages ++ [.ofString ".bin"], .dir), (packages, .dir),
    (broken ++ [.ofString ".bin", .ofString "tsc"], .dir), (broken ++ [.ofString ".bin"], .dir),
    (broken, .dir),
    (shared ++ [.ofString ".bin", .ofString "tsc"], .file [] true),
    (shared ++ [.ofString ".bin"], .dir), (shared, .dir),
    ([.ofString "w", .ofString "pkg", .ofString "app", packagesName],
      .link (.ofString "../../shared")),
    ([.ofString "w", .ofString "pkg", .ofString "app"], .dir),
    ([.ofString "w", .ofString "pkg"], .dir), ([.ofString "w"], .dir)]⟩

theorem locate?_nearest_nestedPackages :
    let c : Checker := ⟨.ofString "/w/node_modules/.bin/tsc", .ofString "/w/pkg"⟩
    let project : Project :=
      ⟨.ofString "/w/pkg/./app/tsconfig.json", .ofString "/w/pkg/./app", [], false⟩
    (∃ dir dir', nestedPackages.IsNearest c.cwd checkerPath dir ∧
      c.binary = dir.installed checkerPath ∧
      nestedPackages.IsNearest project.dir checkerPath dir' ∧ dir.Encloses dir' ∧
      c.binaryFor nestedPackages project = dir'.installed checkerPath) ∧
    c.binaryFor nestedPackages project = .ofString "/w/pkg/./app/node_modules/.bin/tsc" ∧
    ∀ dir : Path, dir.isAbsolute = true → dir.Encloses (.ofString "//") →
      nestedPackages.isFile (dir.installed checkerPath) = false := by
  intro c project
  obtain ⟨hsearch, hchecks⟩ := locate?_nearest nestedPackages
  obtain ⟨dir, dir', hdir, hbinary, hdir', hencloses, -, hown⟩ :=
    hchecks c project (by decide) (by decide) (by decide +kernel)
  refine ⟨⟨dir, dir', hdir, hbinary, hdir', hencloses, hown⟩, by decide +kernel, ?_⟩
  exact (hsearch (.ofString "//") checkerPath (by decide) (by decide)).2.mp (by decide +kernel)

end FileTree

end Typesweep
