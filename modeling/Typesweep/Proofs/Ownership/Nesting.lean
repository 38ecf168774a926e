import Mathlib.Algebra.GroupWithZero.Nat
import Typesweep.Path.WellKnown
import Typesweep.Proofs.Ownership
import Typesweep.Proofs.Path.Relative

/-!
# Nested configurations

The claiming order looks at the lengths of paths and not at directories. For configurations of one
name this respects nesting: the path of the configuration in a directory strictly below another one
has all the names of the other path and some more, so it is longer, and comes first whatever else
stands between the two. Among configurations of different names it does not, as `/r/tsconfig.json`
is longer than `/r/lib/a.json`.

* `byteLength_ofComponents`: the length of a path, name by name.
* `byteLength_lt_of_nested`: the path of a nested configuration is longer.
* `deduplicate_respects_nesting`: the outer configuration gets no file that the inner one covers.
-/

namespace Typesweep

open RawText (slash)
open Text

/-! ## Lengths -/

namespace Path

variable {p q dir dir' : Path} {name : RawText} {cs : List Component}

/-- Every component below the root takes its own length and that of a slash. -/
theorem byteLength_ofComponents (hne : cs ≠ []) :
    (ofComponents (.root :: cs)).byteLength = (cs.map fun c => c.raw.length + 1).sum := by
  obtain ⟨c, rest, rfl⟩ := List.exists_cons_of_ne_nil hne
  have hjoin : (ofComponents (.root :: c :: rest)).raw =
      ((c :: rest).map Component.raw).flatMap (slash :: ·) :=
    congrArg (slash :: ·) (joinWith_cons_eq c.raw (rest.map Component.raw))
  rw [byteLength, hjoin, List.length_flatMap, List.map_map]
  rfl

/-- A normal path of a file is its name in the directory above it. -/
theorem IsNormal.exists_components_of_fileName? (hp : p.IsNormal) (hname : p.fileName? = some name)
    (hdir : p.parent? = some dir) :
    ∃ cs : List Component, (∀ c ∈ cs, c.Proper) ∧ dir = ofComponents (.root :: cs) ∧
      p = ofComponents (.root :: (cs ++ [.name name])) := by
  obtain ⟨all, hall, rfl⟩ := hp.isTidy
  have hne : all ≠ [] := by
    rintro rfl
    cases hdir
  obtain ⟨cs, last, rfl⟩ := (List.eq_nil_or_concat all).resolve_left hne
  rw [List.concat_eq_append] at hall hdir hname ⊢
  obtain ⟨hcs, hlast⟩ := List.forall_mem_append.mp hall
  rw [List.forall_mem_singleton] at hlast
  rw [parent?_ofComponents hcs hlast] at hdir
  obtain rfl : last = .name name := by
    rw [fileName?, components_ofComponents hall, ← List.cons_append, List.getLast?_concat] at hname
    split at hname
    · next heq =>
      rw [Option.some.inj heq, Option.some.inj hname]
    · cases hname
  exact ⟨cs, hcs, (Option.some.inj hdir).symm, rfl⟩

/-- `p` lies strictly above `q`, by their components. -/
def IsStrictlyAbove (p q : Path) : Prop :=
  p.components <+: q.components ∧ ¬p.Same q

instance (p q : Path) : Decidable (p.IsStrictlyAbove q) :=
  inferInstanceAs (Decidable (p.components <+: q.components ∧ ¬p.Same q))

/-- Of two files of one name the one in a directory below that of the other has the longer path. -/
theorem byteLength_lt_of_nested (hp : p.IsNormal) (hq : q.IsNormal)
    (hpname : p.fileName? = some name) (hqname : q.fileName? = some name)
    (hdir : p.parent? = some dir) (hdir' : q.parent? = some dir')
    (hbelow : dir.IsStrictlyAbove dir') : p.byteLength < q.byteLength := by
  obtain ⟨cs, hcs, rfl, rfl⟩ := hp.exists_components_of_fileName? hpname hdir
  obtain ⟨all, hall, rfl, rfl⟩ := hq.exists_components_of_fileName? hqname hdir'
  obtain ⟨hstart, hnot⟩ := hbelow
  rw [Same, components_ofComponents hcs, components_ofComponents hall] at hnot
  rw [components_ofComponents hcs, components_ofComponents hall,
    List.prefix_cons_inj] at hstart
  obtain ⟨more, rfl⟩ := hstart
  have hmore : more ≠ [] := by
    rintro rfl
    exact hnot (by rw [List.append_nil])
  obtain ⟨c, more, rfl⟩ := List.exists_cons_of_ne_nil hmore
  rw [byteLength_ofComponents (by simp), byteLength_ofComponents (by simp)]
  simp only [List.map_append, List.sum_append, List.map_cons, List.sum_cons]
  omega

end Path

/-! ## Claims -/

variable {projects order : List Project} {p outer inner : Project} {name : RawText}
  {file dir dir' : Path}

theorem exists_of_mem_survivors (h : p ∈ survivors order) :
    ∃ before q after, order = before ++ q :: after ∧ p = q.firstAfter before := by
  obtain ⟨hmem, -⟩ := List.mem_filter.mp h
  obtain ⟨i, hi, rfl⟩ := List.mem_mapIdx.mp hmem
  exact ⟨order.take i, order[i], order.drop (i + 1),
    by rw [← List.drop_eq_getElem_cons, List.take_append_drop], rfl⟩

/-- A project that comes before no other one has a path that is at least as long. -/
theorem byteLength_le_of_notMem_before {before after : List Project}
    (horder : IsClaimingOrder projects (before ++ p :: after)) (hinner : inner ∈ projects)
    (hbefore : inner ∉ before) : inner.path.byteLength ≤ p.path.byteLength := by
  have hmem : inner ∈ before ++ p :: after := horder.perm.mem_iff.mpr hinner
  rcases List.mem_append.mp hmem with hmem | hmem
  · exact absurd hmem hbefore
  · rcases List.mem_cons.mp hmem with rfl | hmem
    · exact Nat.le_refl _
    · have hdescends := (List.pairwise_append.mp horder.descending).2.1
      rcases (List.pairwise_cons.mp hdescends).1 inner hmem with hlt | ⟨heq, -⟩
      · exact hlt.le
      · exact heq.le

/-- A configuration neither owns nor lists in the end what one of the same name in a directory below
its own covers, whatever other configurations cover it. -/
theorem deduplicate_respects_nesting
    (hconfigs : ∀ p ∈ projects, p.path.IsNormal ∧ p.path.fileName? = some name)
    (houter : outer ∈ projects) (hinner : inner ∈ projects)
    (hdir : outer.path.parent? = some dir) (hdir' : inner.path.parent? = some dir')
    (hbelow : dir.IsStrictlyAbove dir') (hcovers : inner.covers file = true) :
    (∃ config, (deduplicate projects).2.ownerOf? file = some config ∧
        ¬config.Same outer.path) ∧
      ∀ p ∈ (deduplicate projects).1, p.path.Same outer.path → p.covers file = false := by
  have horder := Project.sortBySpecificity_isClaimingOrder projects
  obtain ⟨hkept, hfollows⟩ := deduplicate_follows projects
  have hlonger : outer.path.byteLength < inner.path.byteLength :=
    Path.byteLength_lt_of_nested (hconfigs outer houter).1 (hconfigs inner hinner).1
      (hconfigs outer houter).2 (hconfigs inner hinner).2 hdir hdir' hbelow
  generalize Project.sortBySpecificity projects = order at horder hkept hfollows
  -- A project that no project covering the file comes before is another one than the outer one.
  have hother : ∀ before p after, order = before ++ p :: after → inner ∉ before →
      ¬p.path.Same outer.path := by
    rintro before p after rfl hbefore hsame
    have hp : p ∈ projects := horder.perm.mem_iff.mp (by simp)
    have hle := byteLength_le_of_notMem_before horder hinner hbefore
    rw [(hconfigs p hp).1.eq_of_same (hconfigs outer houter).1 hsame] at hle
    omega
  refine ⟨?_, fun p hp hsame => ?_⟩
  · have hsome : (order.find? (·.covers file)).isSome = true :=
      List.find?_isSome.mpr ⟨inner, horder.perm.mem_iff.mpr hinner, hcovers⟩
    obtain ⟨p, hfind⟩ := Option.isSome_iff_exists.mp hsome
    obtain ⟨-, before, after, hsplit, hnone⟩ := List.find?_eq_some_iff_append.mp hfind
    refine ⟨p.path, by rw [hfollows file, hfind]; rfl, hother before p after hsplit fun hmem => ?_⟩
    simpa [hcovers] using hnone inner hmem
  · rw [hkept] at hp
    obtain ⟨before, q, after, hsplit, rfl⟩ := exists_of_mem_survivors hp
    have hbefore : inner ∈ before := by
      by_contra hnot
      exact hother before q after hsplit hnot hsame
    by_contra hlisted
    obtain ⟨f, hf, hfile⟩ := Project.covers_iff.mp (Bool.not_eq_false _ ▸ hlisted)
    have hfree := (Project.mem_retain.mp hf).2
    rw [Bool.not_eq_true', List.any_eq_false] at hfree
    exact hfree inner hbefore (by rw [Project.covers_congr hfile, hcovers])

/-- A configuration at the top, one in `lib` and one that has nothing to do with either. All three
cover `lib/a.ts`. -/
def topLibAndElsewhere : List Project :=
  [.ofFiles (.ofString "/tsconfig.json") [.ofString "/b.ts", .ofString "/lib/a.ts"] false,
    .ofFiles (.ofString "/lib/tsconfig.json") [.ofString "/lib/a.ts"] false,
    .ofFiles (.ofString "/elsewhere/tsconfig.json") [.ofString "/lib/a.ts"] false]

theorem deduplicate_respects_nesting_topLibAndElsewhere :
    (∀ p ∈ topLibAndElsewhere, p.path.IsNormal ∧ p.path.fileName? = some configName) ∧
      (topLibAndElsewhere[0].path.parent? = some (.ofString "/") ∧
        topLibAndElsewhere[1].path.parent? = some (.ofString "/lib")) ∧
      (Path.ofString "/").IsStrictlyAbove (.ofString "/lib") ∧
      topLibAndElsewhere[0].covers (.ofString "/lib/a.ts") = true ∧
      topLibAndElsewhere[1].covers (.ofString "/lib/a.ts") = true ∧
      (∃ config, (deduplicate topLibAndElsewhere).2.ownerOf? (.ofString "/lib/a.ts") = some config ∧
        ¬config.Same topLibAndElsewhere[0].path) ∧
      ∀ p ∈ (deduplicate topLibAndElsewhere).1, p.path.Same topLibAndElsewhere[0].path →
        p.covers (.ofString "/lib/a.ts") = false := by
  have hconfigs : ∀ p ∈ topLibAndElsewhere,
      p.path.IsNormal ∧ p.path.fileName? = some configName := by decide
  have hdirs : topLibAndElsewhere[0].path.parent? = some (.ofString "/") ∧
      topLibAndElsewhere[1].path.parent? = some (.ofString "/lib") := by decide
  have hbelow : (Path.ofString "/").IsStrictlyAbove (.ofString "/lib") := by decide
  have hcovers : topLibAndElsewhere[1].covers (.ofString "/lib/a.ts") = true := by decide
  exact ⟨hconfigs, hdirs, hbelow, by decide, hcovers, deduplicate_respects_nesting hconfigs
    (List.getElem_mem _) (List.getElem_mem _) hdirs.1 hdirs.2 hbelow hcovers⟩

-- The length of a path says nothing about nesting if the names of the files differ.
example : (Path.ofString "/r/lib/a.json").byteLength <
    (Path.ofString "/r/tsconfig.json").byteLength := by
  decide

end Typesweep
