import Typesweep.Project
import Typesweep.Proofs.Order
import Typesweep.Proofs.Path.Folding
import Typesweep.Proofs.Path.Order

/-!
# Moved paths

Below a directory a path is told by the names that lead down to it. When the directory is replaced
by another one, the names stay, and with them everything that is asked of paths below it: what is
written after the directory, where relative paths lead, and the order of paths.

The root is left out: it ends with a slash of its own, which no other normal path does.

* `moved`, `moved_under`: a path after a directory above it was replaced.
* `IsLocal`, `absolutize_eq_under`: relative paths that stay below their base.
* `IsBelowRoot.raw_under`, `compare_under`: spelling and order below a directory.
* `sortedDistinct_moved`: the same files below two directories, sorted.
-/

namespace Typesweep

open RawText (slash)

/-- The bytes of a name. -/
def Component.name? : Component → Option RawText
  | .name raw => some raw
  | _ => none

namespace Path

open Component Text

variable {p q dir dir' : Path} {name : RawText} {names more : List RawText} {cs : List Component}

/-! ## Moving -/

/-- A normal path other than the root. -/
structure IsBelowRoot (p : Path) : Prop where
  normal : p.IsNormal
  not_root : p.raw ≠ [slash]

instance : DecidablePred IsBelowRoot := fun p =>
  decidable_of_iff (p.IsNormal ∧ p.raw ≠ [slash])
    ⟨fun h => ⟨h.1, h.2⟩, fun h => ⟨h.normal, h.not_root⟩⟩

theorem IsBelowRoot.raw_ne_nil (h : p.IsBelowRoot) : p.raw ≠ [] := by
  intro hnil
  have habsolute := h.normal.1
  rw [isAbsolute, hnil] at habsolute
  exact absurd habsolute (by decide)

theorem IsBelowRoot.getLast?_ne (h : p.IsBelowRoot) : p.raw.getLast? ≠ some slash := by
  intro hlast
  have hroot := getLast?_raw_normalize (p := p)
  rw [h.normal.2] at hroot
  exact h.not_root (hroot hlast)

/-- The path with `dir'` instead of `dir` at its start. -/
def moved (p dir dir' : Path) : Path :=
  match dir.raw.isPrefixOf? p.raw with
  | some rest => ⟨dir'.raw ++ rest⟩
  | none => p

/-- The bytes of the way down from a directory along names. -/
def wayDown (names : List RawText) : RawText :=
  names.flatMap (slash :: ·)

theorem IsBelowRoot.child (h : p.IsBelowRoot) (hname : (Component.name name).Proper) :
    (p.child name).IsBelowRoot := by
  refine ⟨h.normal.child hname, fun hroot => (raw_child_ends hname p).2 ?_⟩
  rw [hroot]
  rfl

theorem IsBelowRoot.raw_under (h : dir.IsBelowRoot)
    (hnames : ∀ name ∈ names, (Component.name name).Proper) :
    (dir.under names).raw = dir.raw ++ wayDown names := by
  induction names generalizing dir with
  | nil => exact (List.append_nil dir.raw).symm
  | cons name names ih =>
    obtain ⟨hname, hrest⟩ := List.forall_mem_cons.mp hnames
    have hchild : (dir.child name).raw = dir.raw ++ slash :: name :=
      raw_child h.raw_ne_nil h.getLast?_ne hname.2
    have hway : wayDown (name :: names) = slash :: name ++ wayDown names := List.flatMap_cons
    show ((dir.child name).under names).raw = _
    rw [ih (h.child hname) hrest, hchild, hway, List.append_assoc]

theorem moved_under (h : dir.IsBelowRoot) (h' : dir'.IsBelowRoot)
    (hnames : ∀ name ∈ names, (Component.name name).Proper) :
    (dir.under names).moved dir dir' = dir'.under names := by
  have hafter : dir.raw.isPrefixOf? (dir.under names).raw = some (wayDown names) :=
    List.isPrefixOf?_eq_some_iff_append_eq.mpr (h.raw_under hnames).symm
  rw [moved, hafter]
  exact congrArg Path.mk (h'.raw_under hnames).symm

/-! ## Local paths -/

/-- Whether a path stays below its base: it is relative and has no `..`. -/
def IsLocal (p : Path) : Prop :=
  p.isAbsolute = false ∧ .up ∉ p.components

instance : DecidablePred IsLocal := fun p =>
  inferInstanceAs (Decidable (p.isAbsolute = false ∧ .up ∉ p.components))

/-- The names that components lead along. -/
def namesOf (cs : List Component) : List RawText :=
  cs.filterMap Component.name?

/-- A component that does not lead up. -/
def IsStep (c : Component) : Prop :=
  c = .here ∨ ∃ name, c = .name name ∧ c.Proper

theorem map_name_namesOf (h : ∀ c ∈ cs, c ≠ .here ∧ IsStep c) : (namesOf cs).map .name = cs := by
  induction cs with
  | nil => rfl
  | cons c cs ih =>
    obtain ⟨⟨hhere, hstep⟩, hcs⟩ := List.forall_mem_cons.mp h
    obtain ⟨name, rfl, -⟩ := hstep.resolve_left hhere
    exact congrArg (Component.name name :: ·) (ih hcs)

theorem proper_of_mem_namesOf (h : ∀ c ∈ cs, IsStep c) :
    ∀ name ∈ namesOf cs, (Component.name name).Proper := by
  intro name hname
  obtain ⟨c, hc, heq⟩ := List.mem_filterMap.mp hname
  rcases h c hc with rfl | ⟨_, rfl, hproper⟩
  · cases heq
  · obtain rfl := Option.some.inj heq
    exact hproper

/-- The components of a local path do not lead up, and those after a leading `.` are names. -/
theorem IsLocal.components_eq (h : p.IsLocal) :
    (∀ c ∈ p.components, IsStep c) ∧ below p.raw = (namesOf p.components).map .name := by
  obtain ⟨hrelative, hup⟩ := h
  have hstart := start_of_relative hrelative
  have hstep : ∀ c ∈ below p.raw, c ∈ p.components → c ≠ .here ∧ IsStep c := by
    intro c hc hmem
    rcases eq_up_or_name_of_mem_below hc with rfl | ⟨name, rfl⟩
    · exact absurd hmem hup
    · exact ⟨nofun, .inr ⟨name, rfl, proper_of_mem_below hc⟩⟩
  rcases p.components_eq_start_append with heq | ⟨-, -, heq⟩
  · rw [hstart, List.nil_append] at heq
    rw [heq] at hstep ⊢
    have hall : ∀ c ∈ below p.raw, c ≠ .here ∧ IsStep c := fun c hc => hstep c hc hc
    exact ⟨fun c hc => (hall c hc).2, (map_name_namesOf hall).symm⟩
  · rw [heq] at hstep ⊢
    have hall : ∀ c ∈ below p.raw, c ≠ .here ∧ IsStep c := fun c hc =>
      hstep c hc (List.mem_cons_of_mem _ hc)
    exact ⟨List.forall_mem_cons.mpr ⟨.inl rfl, fun c hc => (hall c hc).2⟩,
      (map_name_namesOf hall).symm⟩

/-- A path of components that do not lead up is relative, and leads along their names. -/
theorem below_ofComponents_steps (h : ∀ c ∈ cs, IsStep c) :
    (ofComponents cs).isAbsolute = false ∧
      below (ofComponents cs).raw = (namesOf cs).map .name := by
  have hslash : ∀ piece ∈ cs.map Component.raw, slash ∉ piece := by
    refine List.forall_mem_map.mpr fun c hc => ?_
    rcases h c hc with rfl | ⟨_, rfl, hproper⟩
    · decide
    · exact hproper.2
  have hraw : (ofComponents cs).raw = joinWith [slash] (cs.map Component.raw) := by
    show rawOf cs = _
    unfold rawOf
    split
    · rfl
    · rcases h .root List.mem_cons_self with heq | ⟨_, heq, _⟩ <;> cases heq
    · rfl
  have hsegment : ∀ c ∈ cs, ofSegment? c.raw = c.name?.map .name := by
    intro c hc
    rcases h c hc with rfl | ⟨_, rfl, hproper⟩
    · rfl
    · exact hproper.1
  refine ⟨?_, ?_⟩
  · rw [isAbsolute, hraw]
    refine isAbsolute_joinWith_of_head? hslash fun hhead => ?_
    obtain ⟨c, hc, hnil⟩ := List.mem_map.mp (List.mem_of_head? hhead)
    rcases h c hc with rfl | ⟨_, rfl, hproper⟩
    · cases hnil
    · exact hproper.raw_ne_nil hnil
  · rw [hraw, below_joinWith hslash, List.filterMap_map, namesOf, List.map_filterMap]
    exact List.filterMap_congr hsegment

theorem absolutize_eq_under (hdir : dir.IsNormal) (hq : q.isAbsolute = false)
    (hbelow : below q.raw = names.map .name) : dir.absolutize q = dir.under names := by
  have hnames : ∀ name ∈ names, (Component.name name).Proper := fun name hname =>
    proper_of_mem_below (hbelow ▸ List.mem_map_of_mem hname)
  rw [absolutize, hq, if_neg Bool.false_ne_true]
  refine normalize_eq_under hdir hnames ?_
  rw [components_join hdir.1 hq, hbelow]

/-! ## Order -/

theorem compareComponents_append_left (cs ds es : List Component) :
    compareComponents (cs ++ ds) (cs ++ es) = compareComponents ds es := by
  induction cs with
  | nil => rfl
  | cons c cs ih =>
    have hself : c.compare c = .eq := Std.ReflCmp.compare_self
    rw [List.cons_append, List.cons_append, compareComponents, hself, ih]
    rfl

/-- Below a directory, paths are ordered by the names that lead down. -/
theorem compare_under (hp : p.isAbsolute = true)
    (hnames : ∀ name ∈ names, (Component.name name).Proper)
    (hmore : ∀ name ∈ more, (Component.name name).Proper) :
    (p.under names).compare (p.under more) =
      compareComponents (names.map .name) (more.map .name) := by
  rw [compare, (components_under hp hnames).2, (components_under hp hmore).2,
    compareComponents_append_left]

theorem mem_sortedDistinct_iff {paths : List Path} (h : ∀ p ∈ paths, p.IsNormal) :
    q ∈ sortedDistinct paths ↔ q ∈ paths :=
  Order.mem_sortDistinct_iff fun a ha b hb heq =>
    (h a ha).eq_of_same (h b hb) (compare_eq_iff.mp heq)

/-- The paths below a directory along the names that `way` allows. -/
structure AreBelow (dir : Path) (way : List RawText → Prop) (paths : List Path) : Prop where
  ne_nil : ∀ names, way names → names ≠ []
  proper : ∀ names, way names → ∀ name ∈ names, (Component.name name).Proper
  mem_iff : ∀ p, p ∈ paths ↔ ∃ names, way names ∧ p = dir.under names

variable {way : List RawText → Prop} {paths paths' : List Path}

theorem AreBelow.eq_nil_iff (h : AreBelow dir way paths) : paths = [] ↔ ∀ names, ¬ way names := by
  rw [List.eq_nil_iff_forall_not_mem]
  constructor
  · exact fun hnone names hnames => hnone _ ((h.mem_iff _).mpr ⟨names, hnames, rfl⟩)
  · intro hnone p hp
    obtain ⟨names, hnames, -⟩ := (h.mem_iff p).mp hp
    exact hnone names hnames

theorem AreBelow.sortedDistinct (hpaths : AreBelow dir way paths) (h : dir.IsBelowRoot) :
    AreBelow dir way (sortedDistinct paths) where
  ne_nil := hpaths.ne_nil
  proper := hpaths.proper
  mem_iff p := by
    rw [← hpaths.mem_iff]
    refine mem_sortedDistinct_iff fun q hq => ?_
    obtain ⟨names, hnames, rfl⟩ := (hpaths.mem_iff q).mp hq
    exact h.normal.under (hpaths.proper names hnames)

/-- The same paths below two directories are sorted in the same way. -/
theorem sortedDistinct_moved (h : dir.IsBelowRoot) (h' : dir'.IsBelowRoot)
    (hpaths : AreBelow dir way paths) (hpaths' : AreBelow dir' way paths') :
    sortedDistinct paths' = (sortedDistinct paths).map (·.moved dir dir') := by
  have hsorted := hpaths.sortedDistinct h
  have hascending : ∀ paths, (sortedDistinct paths).Pairwise fun a b => a.compare b = .lt :=
    Order.sortDistinct_pairwise
  refine Order.eq_of_mem_iff (hascending paths') ?_ fun p => ?_
  · refine List.pairwise_map.mpr ((hascending paths).imp_of_mem ?_)
    intro a b ha hb hlt
    obtain ⟨names, hnames, rfl⟩ := (hsorted.mem_iff a).mp ha
    obtain ⟨more, hmore, rfl⟩ := (hsorted.mem_iff b).mp hb
    have hproper := hpaths.proper names hnames
    have hproper' := hpaths.proper more hmore
    rw [compare_under h.normal.1 hproper hproper'] at hlt
    rw [moved_under h h' hproper, moved_under h h' hproper',
      compare_under h'.normal.1 hproper hproper', hlt]
  · rw [(hpaths'.sortedDistinct h').mem_iff, List.mem_map]
    constructor
    · rintro ⟨names, hnames, rfl⟩
      exact ⟨dir.under names, (hsorted.mem_iff _).mpr ⟨names, hnames, rfl⟩,
        moved_under h h' (hpaths.proper names hnames)⟩
    · rintro ⟨q, hq, rfl⟩
      obtain ⟨names, hnames, rfl⟩ := (hsorted.mem_iff q).mp hq
      exact ⟨names, hnames, moved_under h h' (hpaths.proper names hnames)⟩

end Path

end Typesweep
