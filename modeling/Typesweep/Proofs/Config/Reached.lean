import Mathlib.Data.Finite.Prod
import Mathlib.Logic.Relation
import Typesweep.Config.Load
import Typesweep.Proofs.FileTree.Follow
import Typesweep.Proofs.Path.Shown

/-!
# The configurations that are met

Which configurations are met from one along the entries of `extends`, and that in a tree without
links these are finitely many if no entry that names a package goes up.

* `FileTree.Extends`: one configuration builds on another one.
* `FileTree.reached`: the configurations that are met.
* `FileTree.reached_finite`: the main result. What is met ends with names of a place of the tree,
  and few things can come before them (`Anchored`).
-/

namespace Typesweep

open Relation

/-! ## Paths that end with names -/

/-- The components are names after a beginning of `start` or of what normal paths start with. -/
def Anchored (start cs : List Component) : Prop :=
  ∃ (lead : List Component) (names : List RawText), cs = lead ++ names.map Component.name ∧
    (lead <+: start ∨ lead <+: [.root, .up])

namespace Anchored

variable {start cs cs' : List Component}

theorem self (start : List Component) : Anchored start start :=
  ⟨start, [], (List.append_nil start).symm, .inl (List.prefix_refl start)⟩

theorem of_isPrefix (h : Anchored start cs) (hinit : cs' <+: cs) : Anchored start cs' := by
  obtain ⟨lead, names, rfl, hlead⟩ := h
  rw [List.prefix_iff_eq_take, List.take_append, ← List.map_take] at hinit
  have htake : lead.take cs'.length <+: lead := List.take_prefix _ _
  exact ⟨_, _, hinit, hlead.imp htake.trans htake.trans⟩

theorem append (h : Anchored start cs) (names : List RawText) :
    Anchored start (cs ++ names.map Component.name) := by
  obtain ⟨lead, names', rfl, hlead⟩ := h
  refine ⟨lead, names' ++ names, ?_, hlead⟩
  rw [List.map_append, List.append_assoc]

theorem normalize {p : Path} (hp : p.isAbsolute = true) (start : List Component) :
    Anchored start p.normalize.components := by
  obtain ⟨_, lead, names, heq, hlead⟩ := Path.components_normalize hp
  refine ⟨lead, names, heq, .inr ?_⟩
  rcases hlead with rfl | rfl
  · exact ⟨[.up], rfl⟩
  · exact List.prefix_refl _

end Anchored

namespace FileTree

variable {t : FileTree} {path p q dir : Path} {start : List Component} {spec : Text}
  {d : Declaration}

/-- The configuration at `p` builds on the one at `q`. -/
def Extends (t : FileTree) (p q : Path) : Prop :=
  ∃ d spec, t.readDeclaration p = .ok d ∧ spec ∈ d.bases ∧ t.findBase? p.configDir spec = some q

/-- The configurations that are met from the one at a path, each by its components. -/
def reached (t : FileTree) (path : Path) : Set (List Component) :=
  {cs | ∃ q, ReflTransGen t.Extends path q ∧ q.components = cs}

theorem extends_iff_of_read (hread : t.readDeclaration p = .ok d) :
    t.Extends p q ↔ ∃ spec ∈ d.bases, t.findBase? p.configDir spec = some q := by
  constructor
  · rintro ⟨d', spec, hread', hspec, hfind⟩
    obtain rfl := Except.ok.inj (hread.symm.trans hread')
    exact ⟨spec, hspec, hfind⟩
  · rintro ⟨spec, hspec, hfind⟩
    exact ⟨d, spec, hread, hspec, hfind⟩

/-- A configuration whose entries all lead to one file builds on that one only. -/
theorem extends_iff_eq (hread : t.readDeclaration p = .ok d) (hne : d.bases ≠ [])
    (hfind : ∀ spec ∈ d.bases, t.findBase? p.configDir spec = some q) {q' : Path} :
    t.Extends p q' ↔ q' = q := by
  rw [extends_iff_of_read hread]
  constructor
  · rintro ⟨spec, hspec, hq'⟩
    exact Option.some.inj (hq'.symm.trans (hfind spec hspec))
  · rintro rfl
    obtain ⟨spec, hspec⟩ := List.exists_mem_of_ne_nil _ hne
    exact ⟨spec, hspec, hfind spec hspec⟩

/-- An entry of `extends` that names a package. -/
def IsBare (spec : Text) : Prop :=
  ¬ (spec.head? = some '.' ∨ Path.isAbsolute (.ofText spec) = true)

/-- No entry that is met and names a package goes up. -/
def BareWithoutUp (t : FileTree) (path : Path) : Prop :=
  ∀ p, ReflTransGen t.Extends path p → ∀ d, t.readDeclaration p = .ok d → ∀ spec ∈ d.bases,
    IsBare spec → .up ∉ Path.components (.ofText spec)

theorem isFile_of_readDeclaration (h : t.readDeclaration p = .ok d) : t.isFile p = true := by
  unfold readDeclaration readText readBytes at h
  unfold isFile
  cases hlookup : t.lookup p with
  | error e =>
    rw [hlookup] at h
    cases h
  | ok entry =>
    rw [hlookup] at h
    cases entry with
    | file content executable => rfl
    | dir => cases h
    | link target => cases h

/-! ## Where entries lead -/

/-- The directory of a file is a beginning of its path. -/
theorem prefix_configDir (h : t.isFile p = true) :
    p.configDir.isAbsolute = true ∧ p.configDir.components <+: p.components := by
  obtain ⟨parent, hparent⟩ := exists_parent_of_isFile h
  rw [Path.configDir, hparent]
  exact Path.prefix_of_parent? (isAbsolute_of_isFile h) hparent

theorem withExtension?_anchored (hp : p.isAbsolute = true) (h : Anchored start p.components)
    (hq : t.withExtension? p = some q) : t.isFile q = true ∧ Anchored start q.components := by
  unfold withExtension? at hq
  dsimp only at hq
  split at hq
  · next hfile =>
    cases hq
    exact ⟨hfile, h⟩
  · split at hq
    · next hfile =>
      cases hq
      obtain ⟨lead, name, hlead, heq⟩ :=
        Path.components_append (t := Text.toUtf8 ".json".toList) (by decide) (by decide) hp
      refine ⟨hfile, ?_⟩
      rw [heq]
      exact (h.of_isPrefix hlead).append [name]
    · cases hq

theorem packageConfig?_anchored (hp : p.isAbsolute = true) (h : Anchored start p.components)
    (hq : t.packageConfig? p = some q) : t.isFile q = true ∧ Anchored start q.components := by
  unfold packageConfig? at hq
  dsimp only at hq
  rcases Option.or_eq_some_iff.mp hq with hq | ⟨_, hq⟩
  · exact withExtension?_anchored hp h hq
  · split at hq
    · next hfile =>
      cases hq
      refine ⟨hfile, ?_⟩
      rw [Path.components_child hp (by decide) (by decide)]
      exact h.append [configName]
    · cases hq

/-- The components of an entry that names a package are those that it has after a slash. -/
theorem components_of_isBare (h : IsBare spec) :
    Path.components (.ofText spec) = Path.below (Path.ofText spec).raw := by
  rw [IsBare, not_or] at h
  unfold Path.components Path.below
  obtain ⟨first, rest, hpieces⟩ :=
    List.exists_cons_of_ne_nil (Text.splitOn_ne_nil RawText.slash (Path.ofText spec).raw)
  have hdot : first ≠ [RawText.dot] := by
    rintro rfl
    have hhead := Text.head?_ofBytes_eq_dot_iff.mpr (Text.head?_of_splitOn_eq_cons hpieces)
    rw [Path.ofText, Text.ofBytes_toUtf8] at hhead
    exact h.1 hhead
  rw [show Path.segments (.ofText spec) = first :: rest from hpieces, hpieces,
    List.filterMap_cons]
  simp only [Path.leading?, if_neg h.2, if_neg hdot]
  cases Component.ofSegment? first <;> rfl

theorem findBase?_anchored (hdir : dir.isAbsolute = true) (h : Anchored start dir.components)
    (hup : IsBare spec → .up ∉ Path.components (.ofText spec))
    (hq : t.findBase? dir spec = some q) :
    t.isFile q = true ∧ Anchored start q.components := by
  unfold findBase? at hq
  dsimp only at hq
  split at hq
  · unfold Path.absolutize at hq
    split at hq
    · next hspec =>
      exact withExtension?_anchored (Path.components_normalize hspec).1 (.normalize hspec start) hq
    · have hjoin := Path.isAbsolute_join hdir (.ofText spec)
      exact withExtension?_anchored (Path.components_normalize hjoin).1 (.normalize hjoin start) hq
  · next hbare =>
    -- A directory above `dir` is a beginning of it, and only names are put after that.
    obtain ⟨⟨above, names⟩, habove, hq⟩ := List.exists_of_findSome?_eq_some hq
    obtain ⟨_, hmem, heq⟩ := List.mem_map.mp habove
    cases heq
    dsimp only at hq
    split at hq
    · obtain ⟨habsolute, hinit⟩ := Path.prefix_of_mem_ancestors hdir hmem
      have hchild : (above.child packagesName).components =
          above.components ++ [.name packagesName] :=
        Path.components_child habsolute (by decide) (by decide)
      have hpackages : (above.child packagesName).isAbsolute = true :=
        Path.isAbsolute_join habsolute _
      have hrelative : Path.isAbsolute (.ofText spec) = false :=
        Bool.eq_false_iff.mpr fun hspec => hbare (.inr hspec)
      have hnames := hup hbare
      rw [components_of_isBare hbare] at hnames
      obtain ⟨specNames, hspecNames⟩ :=
        Path.exists_names_of_up_notMem (fun c => Path.eq_up_or_name_of_mem_below) hnames
      refine packageConfig?_anchored (Path.isAbsolute_join hpackages _) ?_ hq
      rw [Path.components_join hpackages hrelative, hchild, hspecNames]
      exact ((h.of_isPrefix hinit).append [packagesName]).append specNames
    · cases hq

/-! ## Finitely many -/

/-- What is met is the start or a file, and ends with names. -/
theorem reached_anchored (hbare : t.BareWithoutUp path) (h : ReflTransGen t.Extends path p) :
    (p = path ∨ t.isFile p = true) ∧ Anchored path.components p.components := by
  induction h with
  | refl => exact ⟨.inl rfl, .self _⟩
  | @tail p q hp hstep ih =>
    obtain ⟨d, spec, hread, hspec, hfind⟩ := hstep
    obtain ⟨hdir, hinit⟩ := prefix_configDir (isFile_of_readDeclaration hread)
    obtain ⟨hfile, hanchored⟩ := findBase?_anchored hdir (ih.2.of_isPrefix hinit)
      (hbare p hp d hread spec hspec) hfind
    exact ⟨.inr hfile, hanchored⟩

theorem finite_prefixes {α : Type} (as : List α) : {lead | lead <+: as}.Finite :=
  (List.finite_toSet as.inits).subset fun lead h => (List.mem_inits lead as).mpr h

/-- The ends of the places of a tree. -/
def placeEnds (t : FileTree) : Set Place :=
  {names | ∃ place ∈ t.entries.map Prod.fst, names <:+ place}

theorem placeEnds_finite (t : FileTree) : t.placeEnds.Finite := by
  refine ((t.entries.map Prod.fst).flatMap List.tails).finite_toSet.subset ?_
  rintro names ⟨place, hplace, hsuffix⟩
  exact List.mem_flatMap.mpr ⟨place, hplace, (List.mem_tails names place).mpr hsuffix⟩

/-- In a tree without links finitely many configurations are met if no entry that names a package
goes up. -/
theorem reached_finite (hlinks : t.LinkFree) (hbare : t.BareWithoutUp path) :
    (t.reached path).Finite := by
  have hleads : ({lead | lead <+: path.components} ∪
      {lead | lead <+: [Component.root, Component.up]}).Finite :=
    (finite_prefixes path.components).union (finite_prefixes _)
  have hpaths := Set.Finite.image2 (fun lead (names : Place) => lead ++ names.map Component.name)
    hleads t.placeEnds_finite
  -- The start itself need not be a file, so it is counted on its own.
  refine (hpaths.insert path.components).subset ?_
  rintro cs ⟨q, hq, rfl⟩
  obtain ⟨hstart, lead, names, heq, hlead⟩ := reached_anchored hbare hq
  rcases hstart with rfl | hfile
  · exact Set.mem_insert _ _
  · refine Set.mem_insert_of_mem _ ?_
    exact Set.mem_image2.mpr ⟨lead, hlead, names, exists_place_of_isFile hlinks hfile heq, heq.symm⟩

end FileTree

end Typesweep
