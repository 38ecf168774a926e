import Typesweep.Proofs.Path.Components

/-!
# Normal paths and what is below them

A normal absolute path stays normal when names are put at its end, and its bytes then go on with
these names.

* `IsNormal`, `isNormal_normalize`: the paths that normalizing does not change.
* `under`, `IsAbove`: a path below another one, by the names on the way down.
* `IsAbove.exists_raw`: its bytes.
* `getLast?_raw_normalize`: no normal path ends with a slash, the root excepted.
-/

namespace Typesweep

open RawText (slash)

open Text

namespace Component

variable {c : Component} {name : RawText}

theorem Proper.raw_ne_nil (h : c.Proper) : c.raw ≠ [] := by
  intro heq
  have hnone := h.1
  rw [heq] at hnone
  cases hnone

/-- The last byte of a component is no slash. -/
theorem Proper.getLast?_ne (h : c.Proper) : c.raw.getLast? ≠ some slash :=
  fun hlast => h.2 (List.mem_of_getLast? hlast)

end Component

namespace Path

open Component

variable {p q : Path} {name : RawText} {names pieces : List RawText} {cs : List Component}

/-! ## Joined components -/

/-- Joined components end with the last one. -/
theorem exists_joinWith_append (hne : cs ≠ []) (h : ∀ c ∈ cs, c.Proper) :
    ∃ (start : RawText) (last : Component), last.Proper ∧
      joinWith [slash] (cs.map Component.raw) = start ++ last.raw := by
  obtain ⟨lead, last, rfl⟩ := (List.eq_nil_or_concat cs).resolve_left hne
  rw [List.concat_eq_append, List.map_append, List.map_singleton]
  have hlast : last.Proper := h last (by simp)
  by_cases hlead : lead.map Component.raw = []
  · exact ⟨[], last, hlast, by rw [hlead]; rfl⟩
  · refine ⟨joinWith [slash] (lead.map Component.raw) ++ [slash], last, hlast, ?_⟩
    rw [joinWith_append hlead (List.cons_ne_nil _ _), List.append_assoc]
    rfl

theorem getLast?_append_raw_ne {c : Component} (hc : c.Proper) (start : RawText) :
    (start ++ c.raw).getLast? ≠ some slash := by
  rw [List.getLast?_append_of_ne_nil _ hc.raw_ne_nil]
  exact hc.getLast?_ne

theorem getLast?_joinWith_raw (h : ∀ c ∈ cs, c.Proper) :
    (joinWith [slash] (cs.map Component.raw)).getLast? ≠ some slash := by
  by_cases hne : cs = []
  · rw [hne]
    exact nofun
  · obtain ⟨start, last, hlast, heq⟩ := exists_joinWith_append hne h
    rw [heq]
    exact getLast?_append_raw_ne hlast start

/-- Below the root a path does not end with a slash. -/
theorem getLast?_raw_ofComponents (hne : cs ≠ []) (h : ∀ c ∈ cs, c.Proper) :
    (ofComponents (.root :: cs)).raw.getLast? ≠ some slash := by
  obtain ⟨start, last, hlast, heq⟩ := exists_joinWith_append hne h
  show (slash :: joinWith [slash] (cs.map Component.raw)).getLast? ≠ some slash
  rw [heq, ← List.cons_append]
  exact getLast?_append_raw_ne hlast _

/-! ## Children -/

theorem isAbsolute_eq_false_of_slash_notMem (h : slash ∉ name) : isAbsolute ⟨name⟩ = false := by
  cases name with
  | nil => rfl
  | cons c name =>
    rw [List.mem_cons, not_or] at h
    simpa [isAbsolute] using fun heq : c = slash => h.1 heq.symm

theorem components_child_of_proper (hp : p.isAbsolute = true)
    (hname : (Component.name name).Proper) :
    (p.child name).components = p.components ++ [.name name] := by
  have hslash : slash ∉ name := hname.2
  have hsegment : ofSegment? name = some (.name name) := hname.1
  rw [child, components_join hp (isAbsolute_eq_false_of_slash_notMem hslash), below,
    splitOn_eq_singleton hslash, List.filterMap_cons, hsegment]
  rfl

/-- The bytes of a relative path in a directory, unless they are put directly after a slash. -/
theorem raw_join (hne : p.raw ≠ []) (hlast : p.raw.getLast? ≠ some slash)
    (hq : q.isAbsolute = false) : (p.join q).raw = p.raw ++ slash :: q.raw := by
  rw [join, hq, if_neg Bool.false_ne_true, if_neg (not_or.mpr ⟨hne, hlast⟩)]

theorem raw_child (hne : p.raw ≠ []) (hlast : p.raw.getLast? ≠ some slash) (hname : slash ∉ name) :
    (p.child name).raw = p.raw ++ slash :: name :=
  raw_join hne hlast (isAbsolute_eq_false_of_slash_notMem hname)

theorem exists_raw_child (hname : slash ∉ name) (p : Path) :
    ∃ start, (p.child name).raw = start ++ name := by
  rw [child, join, isAbsolute_eq_false_of_slash_notMem hname, if_neg Bool.false_ne_true]
  split
  · exact ⟨p.raw, rfl⟩
  · exact ⟨p.raw ++ [slash], by simp⟩

/-- A child is not the top, and does not end with a slash. -/
theorem raw_child_ends (hname : (Component.name name).Proper) (p : Path) :
    (p.child name).raw ≠ [] ∧ (p.child name).raw.getLast? ≠ some slash := by
  have hslash : slash ∉ name := hname.2
  obtain ⟨start, hstart⟩ := exists_raw_child hslash p
  rw [hstart]
  exact ⟨fun heq => hname.raw_ne_nil (List.append_eq_nil_iff.mp heq).2,
    getLast?_append_raw_ne hname start⟩

/-! ## Below a path -/

/-- The path that leads from `p` down along names. -/
def under (p : Path) (names : List RawText) : Path :=
  names.foldl child p

theorem under_append (p : Path) (names more : List RawText) :
    p.under (names ++ more) = (p.under names).under more :=
  List.foldl_append

theorem under_concat (p : Path) (names : List RawText) (name : RawText) :
    p.under (names ++ [name]) = (p.under names).child name :=
  p.under_append names [name]

/-- Whether `q` is got from `p` by going down, at least one step. -/
def IsAbove (p q : Path) : Prop :=
  ∃ names : List RawText, names ≠ [] ∧ (∀ name ∈ names, (Component.name name).Proper) ∧
    q = p.under names

theorem isAbove_child (hname : (Component.name name).Proper) (p : Path) :
    p.IsAbove (p.child name) :=
  ⟨[name], List.cons_ne_nil _ _, fun _ h => List.mem_singleton.mp h ▸ hname, rfl⟩

theorem IsAbove.trans {r : Path} (hpq : p.IsAbove q) (hqr : q.IsAbove r) : p.IsAbove r := by
  obtain ⟨names, hne, hnames, rfl⟩ := hpq
  obtain ⟨more, _, hmore, rfl⟩ := hqr
  refine ⟨names ++ more, by simp [hne], fun name hname => ?_, ?_⟩
  · rcases List.mem_append.mp hname with hname | hname
    · exact hnames name hname
    · exact hmore name hname
  · rw [under_append]

theorem fileName?_child (hp : p.isAbsolute = true) (hname : (Component.name name).Proper) :
    (p.child name).fileName? = some name := by
  rw [fileName?, components_child_of_proper hp hname, List.getLast?_append_of_ne_nil _ (by simp)]
  rfl

theorem isAbsolute_child (hp : p.isAbsolute = true) (name : RawText) :
    (p.child name).isAbsolute = true :=
  isAbsolute_join hp _

/-- What is below a path is not the top, and does not end with a slash. -/
theorem IsAbove.raw_ends (h : p.IsAbove q) : q.raw ≠ [] ∧ q.raw.getLast? ≠ some slash := by
  obtain ⟨names, hne, hproper, rfl⟩ := h
  obtain ⟨lead, last, rfl⟩ := (List.eq_nil_or_concat names).resolve_left hne
  rw [List.concat_eq_append, under_concat]
  exact raw_child_ends (hproper last (by simp)) _

/-- The bytes of a path go on with the names that lead down from it. -/
theorem IsAbove.exists_raw (h : p.IsAbove q) (hne : p.raw ≠ [])
    (hlast : p.raw.getLast? ≠ some slash) : ∃ below, q.raw = p.raw ++ slash :: below := by
  obtain ⟨names, hnames, hproper, rfl⟩ := h
  induction names generalizing p with
  | nil => exact absurd rfl hnames
  | cons name names ih =>
    obtain ⟨hname, hrest⟩ := List.forall_mem_cons.mp hproper
    have hchild : (p.child name).raw = p.raw ++ slash :: name := raw_child hne hlast hname.2
    obtain ⟨hne', hlast'⟩ := raw_child_ends hname p
    by_cases hmore : names = []
    · subst hmore
      exact ⟨name, hchild⟩
    · obtain ⟨below, hbelow⟩ := ih hne' hlast' hmore hrest
      refine ⟨name ++ slash :: below, hbelow.trans ?_⟩
      rw [hchild, List.append_assoc]
      rfl

/-! ## Normal paths -/

/-- An absolute path that normalizing does not change. -/
def IsNormal (p : Path) : Prop :=
  p.isAbsolute = true ∧ p.normalize = p

instance : DecidablePred IsNormal := fun p =>
  inferInstanceAs (Decidable (p.isAbsolute = true ∧ p.normalize = p))

theorem foldl_foldComponent_names (kept : List Component) (names : List RawText) :
    (names.map Component.name).foldl foldComponent kept =
      (names.map Component.name).reverse ++ kept := by
  induction names generalizing kept with
  | nil => rfl
  | cons name names ih =>
    rw [List.map_cons, List.foldl_cons, ih, List.reverse_cons, List.append_assoc]
    rfl

theorem isNormal_ofComponents {lead : List Component}
    (hlead : lead = [.root] ∨ lead = [.root, .up])
    (hnames : ∀ name ∈ names, (Component.name name).Proper) :
    (ofComponents (lead ++ names.map Component.name)).IsNormal := by
  obtain ⟨habsolute, hcomponents⟩ := components_ofComponents_lead hlead hnames
  have hfold : lead.foldl foldComponent [] = lead.reverse := by
    rcases hlead with rfl | rfl <;> rfl
  refine ⟨habsolute, ?_⟩
  rw [normalize, hcomponents, List.foldl_append, hfold, foldl_foldComponent_names,
    ← List.reverse_append, List.reverse_reverse]

/-- Normalizing an absolute path makes it normal. -/
theorem isNormal_normalize (hp : p.isAbsolute = true) : p.normalize.IsNormal := by
  obtain ⟨lead, names, hnormal, hlead, hnames⟩ := exists_normalize_eq hp
  rw [hnormal]
  exact isNormal_ofComponents hlead hnames

/-- A path with the components of a normal one is normalized to it, however it is written. -/
theorem IsNormal.normalize_eq (hp : p.IsNormal) (h : q.components = p.components) :
    q.normalize = p := by
  rw [normalize, h, ← normalize, hp.2]

/-- Normal paths are told apart by their components. -/
theorem IsNormal.eq_of_same (hp : p.IsNormal) (hq : q.IsNormal) (h : p.Same q) : p = q :=
  hp.2.symm.trans (hq.normalize_eq h)

theorem child_ofComponents (h : ∀ c ∈ cs, c.Proper) (hname : (Component.name name).Proper) :
    (ofComponents (.root :: cs)).child name = ofComponents (.root :: (cs ++ [.name name])) := by
  have hslash : slash ∉ name := hname.2
  by_cases hne : cs = []
  · subst hne
    rw [child, join, isAbsolute_eq_false_of_slash_notMem hslash, if_neg Bool.false_ne_true,
      if_pos (.inr rfl)]
    rfl
  · have hraw := raw_child (List.cons_ne_nil _ _) (getLast?_raw_ofComponents hne h) hslash
    have hsame : ∀ q r : Path, q.raw = r.raw → q = r := by
      rintro ⟨_⟩ ⟨_⟩ h
      exact congrArg Path.mk h
    refine hsame _ _ (hraw.trans ?_)
    show slash :: joinWith [slash] (cs.map Component.raw) ++ slash :: name =
      slash :: joinWith [slash] ((cs ++ [Component.name name]).map Component.raw)
    rw [List.map_append, List.map_singleton,
      joinWith_append (by simpa using hne) (List.cons_ne_nil _ _)]
    rfl

theorem IsNormal.child (hp : p.IsNormal) (hname : (Component.name name).Proper) :
    (p.child name).IsNormal := by
  obtain ⟨lead, names, hnormal, hlead, hnames⟩ := exists_normalize_eq hp.1
  have hproper : ∀ c ∈ names.map Component.name, c.Proper := List.forall_mem_map.mpr hnames
  have hchild : p.child name =
      ofComponents (lead ++ (names ++ [name]).map Component.name) := by
    rw [← hp.2, hnormal, List.map_append, List.map_singleton]
    rcases hlead with rfl | rfl
    · exact child_ofComponents hproper hname
    · exact child_ofComponents (List.forall_mem_cons.mpr ⟨proper_up, hproper⟩) hname
  rw [hchild]
  refine isNormal_ofComponents hlead fun other hother => ?_
  rcases List.mem_append.mp hother with hother | hother
  · exact hnames other hother
  · exact List.mem_singleton.mp hother ▸ hname

theorem IsNormal.under (hp : p.IsNormal) (h : ∀ name ∈ names, (Component.name name).Proper) :
    (p.under names).IsNormal := by
  induction names generalizing p with
  | nil => exact hp
  | cons name names ih =>
    obtain ⟨hname, hrest⟩ := List.forall_mem_cons.mp h
    exact ih (hp.child hname) hrest

theorem IsNormal.of_isAbove (hp : p.IsNormal) (h : p.IsAbove q) : q.IsNormal := by
  obtain ⟨names, -, hproper, rfl⟩ := h
  exact hp.under hproper

/-- What the components of a normal path start with are those of a normal path. -/
theorem IsNormal.exists_same_of_prefix (hp : p.IsNormal) (hq : q.isAbsolute = true)
    (h : q.components <+: p.components) : ∃ base : Path, base.IsNormal ∧ q.Same base := by
  obtain ⟨lead, names, hnormal, hlead, hnames⟩ := exists_normalize_eq hp.1
  obtain ⟨more, hmore⟩ := h
  obtain ⟨rest, rfl⟩ := exists_raw_of_isAbsolute hq
  rw [← hp.2, hnormal, (components_ofComponents_lead hlead hnames).2, components_slash] at hmore
  have hbase : ∀ (lead : List Component) (first last : List RawText), names = first ++ last →
      (lead = [.root] ∨ lead = [.root, .up]) →
        components ⟨slash :: rest⟩ = lead ++ first.map Component.name →
          ∃ base : Path, base.IsNormal ∧ Same ⟨slash :: rest⟩ base := by
    rintro lead first last rfl hlead hcomponents
    have hfirst := (List.forall_mem_append.mp hnames).1
    refine ⟨_, isNormal_ofComponents hlead hfirst, hcomponents.trans ?_⟩
    rw [(components_ofComponents_lead hlead hfirst).2]
  rcases hlead with rfl | rfl
  · obtain ⟨first, last, hsplit, hfirst, -⟩ :=
      List.map_eq_append_iff.mp (List.cons.inj hmore).2.symm
    refine hbase [.root] first last hsplit (.inl rfl) ?_
    rw [components_slash, hfirst]
    rfl
  · rcases hbelow : below rest with _ | ⟨c, cs⟩
    · refine hbase [.root] [] names rfl (.inl rfl) ?_
      rw [components_slash, hbelow]
      rfl
    · rw [hbelow] at hmore
      obtain ⟨hc, hcs⟩ := List.cons.inj (List.cons.inj hmore).2
      obtain ⟨first, last, hsplit, hfirst, -⟩ := List.map_eq_append_iff.mp hcs.symm
      refine hbase [.root, .up] first last hsplit (.inr rfl) ?_
      rw [components_slash, hbelow, hc, hfirst]
      rfl

/-! ## The ends of normal paths -/

/-- After its start, which can be the root or a `.`, a path has proper components only. -/
theorem exists_lead_components (p : Path) :
    ∃ lead rest, p.components = lead ++ rest ∧ (∀ c ∈ rest, c.Proper) ∧
      (lead = [] ∨ (lead = [.root] ∧ p.isAbsolute = true) ∨ lead = [.here]) := by
  have hproper : ∀ c, ∀ segment ∈ p.segments, ofSegment? segment = some c → c.Proper := by
    intro c segment hsegment hc
    obtain rfl := raw_of_ofSegment? hc
    exact ⟨hc, sep_notMem_of_mem_splitOn hsegment⟩
  obtain ⟨first, rest, hsegments, hcomponents⟩ := p.exists_segments
  have hfirst : first ∈ p.segments := hsegments ▸ List.mem_cons_self
  have hrest : ∀ c ∈ rest.filterMap ofSegment?, c.Proper := by
    intro c hc
    obtain ⟨segment, hsegment, hc⟩ := List.mem_filterMap.mp hc
    exact hproper c segment (hsegments ▸ List.mem_cons_of_mem first hsegment) hc
  unfold leading? at hcomponents
  split at hcomponents
  · next habsolute => exact ⟨[.root], _, hcomponents, hrest, .inr (.inl ⟨rfl, habsolute⟩)⟩
  · split at hcomponents
    · exact ⟨[.here], _, hcomponents, hrest, .inr (.inr rfl)⟩
    · refine ⟨[], _, hcomponents, fun c hc => ?_, .inl rfl⟩
      rcases List.mem_append.mp hc with hc | hc
      · exact hproper c first hfirst (by simpa using hc)
      · exact hrest c hc

theorem here_or_proper_of_mem_components {c : Component} (hp : p.isAbsolute = false)
    (h : c ∈ p.components) : c = .here ∨ c.Proper := by
  obtain ⟨lead, rest, hcomponents, hrest, hlead⟩ := exists_lead_components p
  rw [hcomponents] at h
  rcases List.mem_append.mp h with h | h
  · rcases hlead with rfl | ⟨-, habsolute⟩ | rfl
    · exact absurd h List.not_mem_nil
    · exact absurd (hp.symm.trans habsolute) Bool.false_ne_true
    · exact .inl (List.mem_singleton.mp h)
  · exact .inr (hrest c h)

/-- Only absolute paths start at the root. -/
theorem isAbsolute_iff_root_mem : p.isAbsolute = true ↔ Component.root ∈ p.components := by
  constructor
  · intro hp
    obtain ⟨rest, rfl⟩ := exists_raw_of_isAbsolute hp
    rw [components_slash]
    exact List.mem_cons_self
  · intro hroot
    by_contra hp
    rcases here_or_proper_of_mem_components (Bool.eq_false_iff.mpr hp) hroot with hhere | hproper
    · cases hhere
    · exact hproper.2 List.mem_cons_self

theorem Same.isAbsolute (h : p.Same q) (hp : p.isAbsolute = true) : q.isAbsolute = true := by
  rw [isAbsolute_iff_root_mem] at hp ⊢
  rwa [← show p.components = q.components from h]

theorem proper_foldl_foldComponent {kept : List Component} (hkept : ∀ c ∈ kept, c.Proper)
    (hcs : ∀ c ∈ cs, c = .here ∨ c.Proper) : ∀ c ∈ cs.foldl foldComponent kept, c.Proper := by
  have hroot : ¬Component.root.Proper := fun h => h.2 List.mem_cons_self
  induction cs generalizing kept with
  | nil => exact hkept
  | cons c cs ih =>
    refine ih ?_ fun c' hc' => hcs c' (List.mem_cons_of_mem c hc')
    rcases hcs c List.mem_cons_self with rfl | hc
    · exact hkept
    · cases c with
      | root => exact absurd hc hroot
      | here => exact hkept
      | name n => exact List.forall_mem_cons.mpr ⟨hc, hkept⟩
      | up =>
        cases kept with
        | nil => exact List.forall_mem_cons.mpr ⟨hc, hkept⟩
        | cons last kept =>
          obtain ⟨hlast, hrest⟩ := List.forall_mem_cons.mp hkept
          cases last with
          | root => exact absurd hlast hroot
          | _ => exact hrest

/-- A relative path is normalized to proper components. -/
theorem exists_normalize_eq_of_relative (hp : p.isAbsolute = false) :
    ∃ cs : List Component, (∀ c ∈ cs, c.Proper) ∧
      p.normalize.raw = joinWith [slash] (cs.map Component.raw) := by
  have hkept : ∀ c ∈ (p.components.foldl foldComponent []).reverse, c.Proper := fun c hc =>
    proper_foldl_foldComponent (fun _ hnil => absurd hnil List.not_mem_nil)
      (fun _ hmem => here_or_proper_of_mem_components hp hmem) c (List.mem_reverse.mp hc)
  refine ⟨_, hkept, ?_⟩
  show rawOf _ = _
  unfold rawOf
  split
  · next heq =>
    rw [heq]
    rfl
  · next heq => exact absurd List.mem_cons_self (hkept .root (heq ▸ List.mem_cons_self)).2
  · rfl

theorem isAbsolute_of_normalize (h : p.normalize.isAbsolute = true) : p.isAbsolute = true := by
  cases hp : p.isAbsolute with
  | true => rfl
  | false =>
    obtain ⟨cs, hcs, hraw⟩ := exists_normalize_eq_of_relative hp
    rw [isAbsolute, hraw, decide_eq_true_iff] at h
    cases cs with
    | nil => cases h
    | cons c cs =>
      have hc := hcs c List.mem_cons_self
      obtain ⟨rest, hrest⟩ : ∃ rest,
          joinWith [slash] ((c :: cs).map Component.raw) = c.raw ++ rest := by
        cases cs with
        | nil => exact ⟨[], (List.append_nil _).symm⟩
        | cons d cs => exact ⟨_, List.append_assoc _ _ _⟩
      rw [hrest, List.head?_append_of_ne_nil _ hc.raw_ne_nil] at h
      exact absurd (List.mem_of_head? h) hc.2

/-- Only the path of the root ends with a slash. -/
theorem getLast?_raw_normalize (h : p.normalize.raw.getLast? = some slash) :
    p.normalize.raw = [slash] := by
  cases hp : p.isAbsolute with
  | true =>
    obtain ⟨lead, names, hnormal, hlead, hnames⟩ := exists_normalize_eq hp
    rw [hnormal] at h ⊢
    have hproper : ∀ c ∈ names.map Component.name, c.Proper := List.forall_mem_map.mpr hnames
    rcases hlead with rfl | rfl
    · by_cases hne : names.map Component.name = []
      · rw [hne]
        rfl
      · exact absurd h (getLast?_raw_ofComponents hne hproper)
    · exact absurd h (getLast?_raw_ofComponents (List.cons_ne_nil _ _)
        (List.forall_mem_cons.mpr ⟨proper_up, hproper⟩))
  | false =>
    obtain ⟨cs, hcs, hraw⟩ := exists_normalize_eq_of_relative hp
    rw [hraw] at h
    exact absurd h (getLast?_joinWith_raw hcs)

theorem exists_absolutize_eq (base p : Path) : ∃ q, base.absolutize p = normalize q := by
  unfold absolutize
  split
  · exact ⟨p, rfl⟩
  · exact ⟨_, rfl⟩

theorem isNormal_absolutize {base : Path} (h : (base.absolutize p).isAbsolute = true) :
    (base.absolutize p).IsNormal := by
  obtain ⟨q, hq⟩ := exists_absolutize_eq base p
  rw [hq] at h ⊢
  exact isNormal_normalize (isAbsolute_of_normalize h)

theorem isNormal_absolutize_of_isAbsolute {base : Path} (hbase : base.isAbsolute = true)
    (p : Path) : (base.absolutize p).IsNormal := by
  unfold absolutize
  split
  · next hp => exact isNormal_normalize hp
  · exact isNormal_normalize (isAbsolute_join hbase p)

end Path

end Typesweep
