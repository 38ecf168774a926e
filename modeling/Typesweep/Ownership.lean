import Typesweep.Project

/-!
# Ownership

Where configurations overlap, a file is checked by exactly one of them: the most specific one that
covers it. The longer path of a configuration counts as the more specific; among equally long
ones the order of paths decides. Projects left without files are not checked.

* `Project.sortBySpecificity`: the claiming order.
* `Ownership.ownerOf?`: the configuration that a file belongs to.
* `deduplicate`: the projects with the files that they own, and the owner of every file.
-/

namespace Typesweep

/-- The owner of every claimed file. Each file is there once. -/
structure Ownership where
  /-- The claimed files with the configurations that own them, in the order of claiming. -/
  claims : List (Path × Path) := []
  deriving DecidableEq, Repr

namespace Ownership

/-- The configuration that owns a file, if it is claimed. -/
def ownerOf? (o : Ownership) (file : Path) : Option Path :=
  (o.claims.find? fun claim => decide (claim.1.Same file)).map Prod.snd

/-- Whether a file is claimed. -/
def isClaimed (o : Ownership) (file : Path) : Bool :=
  (o.ownerOf? file).isSome

/-- Number of claimed files. -/
def size (o : Ownership) : Nat :=
  o.claims.length

/-- With the files claimed for a configuration, as far as they are not claimed yet. -/
def claim (o : Ownership) (config : Path) (files : List Path) : Ownership :=
  files.foldl (fun o file => if o.isClaimed file then o else ⟨o.claims ++ [(file, config)]⟩) o

end Ownership

namespace Project

/-- The longer path of a configuration comes first, then the smaller one. -/
def compareSpecificity (p q : Project) : Ordering :=
  (compare q.path.byteLength p.path.byteLength).then (p.path.compare q.path)

/-- The projects in the order in which they claim files. -/
def sortBySpecificity (projects : List Project) : List Project :=
  Order.sort compareSpecificity projects

end Project

/-- Lets projects claim their files in the given order. Gives those that got any, and the owners. -/
def claimAll (o : Ownership) : List Project → List Project × Ownership
  | [] => ([], o)
  | p :: rest =>
    let owned := p.retain fun file => !o.isClaimed file
    let (kept, owners) := claimAll (o.claim p.path owned.files) rest
    (if owned.isEmpty then kept else owned :: kept, owners)

/-- Gives every file to exactly one project: the projects with the files that they own, in claiming
order, and the owner of every file. -/
def deduplicate (projects : List Project) : List Project × Ownership :=
  claimAll {} (Project.sortBySpecificity projects)

end Typesweep
