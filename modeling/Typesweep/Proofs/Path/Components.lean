import Mathlib.Data.List.DropRight
import Typesweep.Path.Normal
import Typesweep.Proofs.Text.Cutting

/-!
# Components of absolute paths

What the operations on paths do to the components of an absolute path: these are the root and what
stands after the first slash (`Path.below`).

* `components_join`, `components_child`: the components of what is joined come last.
* `prefix_of_mem_ancestors`, `prefix_configDir`: above a path are beginnings of it.
* `components_append`: what is put at the end makes the last component a name.
* `components_normalize`: a normal path is names below the root, or below one `..` that is left.
-/

namespace Typesweep

open RawText (slash dot)

namespace Component

/-- A component that a segment stands for. -/
def Proper (c : Component) : Prop :=
  ofSegment? c.raw = some c ∧ slash ∉ c.raw

instance : DecidablePred Proper := fun c =>
  inferInstanceAs (Decidable (ofSegment? c.raw = some c ∧ slash ∉ c.raw))

theorem raw_of_ofSegment? {segment : RawText} {c : Component} (h : ofSegment? segment = some c) :
    c.raw = segment := by
  unfold ofSegment? at h
  split at h
  · cases h
  · split at h
    · cases h
    · split at h
      · next hup =>
        cases h
        exact hup.symm
      · cases h
        rfl

theorem eq_up_or_name_of_ofSegment? {segment : RawText} {c : Component}
    (h : ofSegment? segment = some c) : c = .up ∨ c = .name segment := by
  unfold ofSegment? at h
  split at h
  · cases h
  · split at h
    · cases h
    · split at h
      · exact .inl (Option.some.inj h).symm
      · exact .inr (Option.some.inj h).symm

theorem ofSegment?_eq_none_iff {segment : RawText} :
    ofSegment? segment = none ↔ segment = [] ∨ segment = [dot] := by
  unfold ofSegment?
  split_ifs with hempty hdot <;> simp [*]

/-- Only short segments are no names. -/
theorem ofSegment?_of_length {segment : RawText} (h : 2 < segment.length) :
    ofSegment? segment = some (.name segment) := by
  have hne : ∀ short : RawText, short.length ≤ 2 → segment ≠ short := by
    rintro short hshort rfl
    omega
  rw [ofSegment?, if_neg (hne [] (by decide)), if_neg (hne [dot] (by decide)),
    if_neg (hne [dot, dot] (by decide))]

end Component

namespace Path

open Component Text

variable {p q : Path} {t rest : RawText} {pieces : List RawText} {cs : List Component}

/-! ## What stands after a slash -/

/-- The components that bytes stand for after a slash. -/
def below (t : RawText) : List Component :=
  (splitOn slash t).filterMap ofSegment?

theorem below_nil : below [] = [] :=
  rfl

theorem below_append_slash (s t : RawText) : below (s ++ slash :: t) = below s ++ below t := by
  rw [below, splitOn_append_sep, List.filterMap_append]
  rfl

theorem proper_of_mem_below {c : Component} (h : c ∈ below t) : c.Proper := by
  obtain ⟨segment, hsegment, hc⟩ := List.mem_filterMap.mp h
  obtain rfl := raw_of_ofSegment? hc
  exact ⟨hc, sep_notMem_of_mem_splitOn hsegment⟩

theorem eq_up_or_name_of_mem_below {c : Component} (h : c ∈ below t) :
    c = .up ∨ ∃ name, c = .name name := by
  obtain ⟨segment, _, hc⟩ := List.mem_filterMap.mp h
  exact (eq_up_or_name_of_ofSegment? hc).imp_right fun hname => ⟨segment, hname⟩

/-- Components without `..` after a slash are names. -/
theorem exists_names_of_up_notMem (h : ∀ c ∈ cs, c = .up ∨ ∃ name, c = Component.name name)
    (hup : .up ∉ cs) : ∃ names : List RawText, cs = names.map Component.name := by
  induction cs with
  | nil => exact ⟨[], rfl⟩
  | cons c cs ih =>
    rw [List.mem_cons, not_or] at hup
    obtain ⟨names, rfl⟩ := ih (fun c' hc' => h c' (List.mem_cons_of_mem c hc')) hup.2
    rcases h c List.mem_cons_self with rfl | ⟨name, rfl⟩
    · exact absurd rfl hup.1
    · exact ⟨name :: names, rfl⟩

theorem below_joinWith (h : ∀ piece ∈ pieces, slash ∉ piece) :
    below (joinWith [slash] pieces) = pieces.filterMap ofSegment? := by
  cases pieces with
  | nil => rfl
  | cons first others => rw [below, splitOn_joinWith (List.cons_ne_nil _ _) h]

theorem below_joinWith_raw (h : ∀ c ∈ cs, c.Proper) :
    below (joinWith [slash] (cs.map Component.raw)) = cs := by
  rw [below_joinWith]
  · rw [List.filterMap_map]
    refine (List.filterMap_congr fun c hc => ?_).trans List.filterMap_some
    exact (h c hc).1
  · intro segment hsegment
    obtain ⟨c, hc, rfl⟩ := List.mem_map.mp hsegment
    exact (h c hc).2

/-- What is put at the end goes to the last segment, which becomes a name. -/
theorem below_append (hlength : 2 < t.length) (hslash : slash ∉ t) (rest : RawText) :
    ∃ lead name, lead <+: below rest ∧ below (rest ++ t) = lead ++ [.name name] := by
  obtain ⟨before, last, hpieces⟩ :=
    (List.eq_nil_or_concat (splitOn slash rest)).resolve_left (splitOn_ne_nil slash rest)
  rw [List.concat_eq_append] at hpieces
  refine ⟨before.filterMap ofSegment?, last ++ t, ?_, ?_⟩
  · rw [below, hpieces, List.filterMap_append]
    exact List.prefix_append _ _
  · have hlast : ofSegment? (last ++ t) = some (.name (last ++ t)) := by
      refine ofSegment?_of_length ?_
      rw [List.length_append]
      omega
    rw [below, splitOn_append hslash hpieces, List.filterMap_append, List.filterMap_cons, hlast]
    rfl

/-! ## All paths -/

theorem exists_segments (p : Path) : ∃ first rest, p.segments = first :: rest ∧
    p.components = (p.leading? first).toList ++ rest.filterMap ofSegment? := by
  obtain ⟨first, rest, hsegments⟩ := List.exists_cons_of_ne_nil (splitOn_ne_nil slash p.raw)
  exact ⟨first, rest, hsegments, by rw [components, segments, hsegments]⟩

/-- A path goes on from a slash with what stands after it. -/
theorem components_append_slash (hne : p.raw ≠ []) (t : RawText) :
    components ⟨p.raw ++ slash :: t⟩ = p.components ++ below t := by
  obtain ⟨first, rest, hsegments, hp⟩ := p.exists_segments
  have habsolute : isAbsolute ⟨p.raw ++ slash :: t⟩ = p.isAbsolute := by
    rw [isAbsolute, isAbsolute, List.head?_append_of_ne_nil _ hne]
  have hlonger : segments ⟨p.raw ++ slash :: t⟩ = first :: (rest ++ splitOn slash t) := by
    rw [← List.cons_append, ← hsegments]
    exact splitOn_append_sep p.raw t
  rw [hp, components, hlonger, List.append_assoc]
  simp only [leading?, habsolute, List.filterMap_append, below]

/-- Every component but the root is a segment of the path. -/
theorem eq_root_or_mem_segments {c : Component} (h : c ∈ p.components) :
    c = .root ∨ c.raw ∈ p.segments := by
  obtain ⟨first, rest, hsegments, hp⟩ := p.exists_segments
  rw [hp] at h
  rw [hsegments]
  rcases List.mem_append.mp h with h | h
  · rw [Option.mem_toList] at h
    unfold leading? at h
    split at h
    · exact .inl (Option.some.inj h).symm
    · split at h
      · next hhere =>
        obtain rfl := Option.some.inj h
        exact .inr (hhere ▸ List.mem_cons_self)
      · exact .inr (raw_of_ofSegment? h ▸ List.mem_cons_self)
  · obtain ⟨segment, hsegment, hc⟩ := List.mem_filterMap.mp h
    exact .inr (List.mem_cons_of_mem first (raw_of_ofSegment? hc ▸ hsegment))

/-! ## Absolute paths -/

theorem exists_raw_of_isAbsolute (h : p.isAbsolute = true) : ∃ rest, p = ⟨slash :: rest⟩ := by
  obtain ⟨raw⟩ := p
  cases raw with
  | nil => simp [isAbsolute] at h
  | cons c rest =>
    have hc : c = slash := by simpa [isAbsolute] using h
    exact ⟨rest, by rw [hc]⟩

theorem isAbsolute_slash (rest : RawText) : isAbsolute ⟨slash :: rest⟩ = true := by
  simp [isAbsolute]

theorem segments_slash (rest : RawText) : segments ⟨slash :: rest⟩ = [] :: splitOn slash rest :=
  splitOn_cons_sep slash rest

theorem components_slash (rest : RawText) : components ⟨slash :: rest⟩ = .root :: below rest := by
  rw [components, segments_slash]
  simp only [leading?, isAbsolute_slash, if_true]
  rfl

theorem isAbsolute_join (hp : p.isAbsolute = true) (q : Path) : (p.join q).isAbsolute = true := by
  obtain ⟨rest, rfl⟩ := exists_raw_of_isAbsolute hp
  unfold join
  split
  · assumption
  · split <;> exact isAbsolute_slash _

/-- A slash at the end stands for nothing. -/
theorem below_append_of_slash_end {s : RawText} (h : (slash :: s).getLast? = some slash)
    (t : RawText) :
    below (s ++ t) = below s ++ below t := by
  rcases List.eq_nil_or_concat s with rfl | ⟨s, c, rfl⟩
  · rfl
  · rw [List.concat_eq_append, ← List.cons_append, List.getLast?_concat] at h
    obtain rfl := Option.some.inj h
    rw [List.concat_eq_append, List.append_assoc, List.singleton_append, below_append_slash,
      below_append_slash, below_nil, List.append_nil]

theorem components_join (hp : p.isAbsolute = true) (hq : q.isAbsolute = false) :
    (p.join q).components = p.components ++ below q.raw := by
  obtain ⟨rest, rfl⟩ := exists_raw_of_isAbsolute hp
  rw [join, hq, if_neg Bool.false_ne_true]
  split
  · next hend =>
    have hslash := hend.resolve_left (List.cons_ne_nil _ _)
    rw [List.cons_append, components_slash, components_slash, below_append_of_slash_end hslash]
    rfl
  · rw [List.cons_append, components_slash, components_slash, below_append_slash]
    rfl

theorem components_child {name : RawText} (hp : p.isAbsolute = true) (hlength : 2 < name.length)
    (hslash : slash ∉ name) : (p.child name).components = p.components ++ [.name name] := by
  have hrelative : isAbsolute ⟨name⟩ = false := by
    cases name with
    | nil => rfl
    | cons c name =>
      rw [List.mem_cons, not_or] at hslash
      simpa [isAbsolute] using fun heq : c = slash => hslash.1 heq.symm
  rw [child, components_join hp hrelative, below, splitOn_eq_singleton hslash,
    List.filterMap_cons, ofSegment?_of_length hlength]
  rfl

/-- What is put at the end of a path makes its last component a name. -/
theorem components_append (hlength : 2 < t.length) (hslash : slash ∉ t) (hp : p.isAbsolute = true) :
    ∃ lead name, lead <+: p.components ∧ components ⟨p.raw ++ t⟩ = lead ++ [.name name] := by
  obtain ⟨rest, rfl⟩ := exists_raw_of_isAbsolute hp
  obtain ⟨lead, name, hlead, heq⟩ := below_append hlength hslash rest
  refine ⟨.root :: lead, name, ?_, ?_⟩
  · rw [components_slash]
    exact List.prefix_cons_inj _ |>.mpr hlead
  · rw [List.cons_append, components_slash, heq]
    rfl

/-! ## Above a path -/

theorem prefix_dropNoiseEnd (pieces : List RawText) : dropNoiseEnd pieces <+: pieces :=
  List.rdropWhile_prefix isNoise pieces

theorem ofSegment?_eq_none {piece : RawText} (h : isNoise piece = true) :
    ofSegment? piece = none := by
  unfold isNoise at h
  rw [Bool.or_eq_true, decide_eq_true_iff, decide_eq_true_iff] at h
  exact ofSegment?_eq_none_iff.mpr h

theorem split_slash (rest : RawText) : split ⟨slash :: rest⟩ = ([slash], splitOn slash rest) := by
  rw [split, segments_slash]
  simp only [isAbsolute_slash, if_true]

/-- The path above an absolute path is absolute, and a beginning of it. -/
theorem prefix_of_parent? (hp : p.isAbsolute = true) (h : p.parent? = some q) :
    q.isAbsolute = true ∧ q.components <+: p.components := by
  obtain ⟨rest, rfl⟩ := exists_raw_of_isAbsolute hp
  unfold parent? at h
  rw [split_slash] at h
  dsimp only at h
  split at h
  · cases h
  · obtain rfl := Option.some.inj h
    have hinit : dropNoiseEnd (dropNoiseEnd (splitOn slash rest)).dropLast <+:
        splitOn slash rest :=
      (prefix_dropNoiseEnd _).trans ((List.dropLast_prefix _).trans (prefix_dropNoiseEnd _))
    refine ⟨isAbsolute_slash _, ?_⟩
    show components ⟨slash :: joinWith [slash] _⟩ <+: _
    rw [components_slash, components_slash, below_joinWith fun piece hpiece =>
      sep_notMem_of_mem_splitOn (hinit.subset hpiece)]
    exact (List.prefix_cons_inj _).mpr (hinit.filterMap ofSegment?)

/-- Nothing is above an absolute path only if it is the root. -/
theorem components_of_parent?_eq_none (hp : p.isAbsolute = true) (h : p.parent? = none) :
    p.components = [.root] := by
  obtain ⟨rest, rfl⟩ := exists_raw_of_isAbsolute hp
  unfold parent? at h
  rw [split_slash] at h
  dsimp only at h
  split at h
  · next hnoise =>
    rw [components_slash, below, List.filterMap_eq_nil_iff.mpr]
    exact fun piece hpiece => ofSegment?_eq_none (List.rdropWhile_eq_nil_iff.mp hnoise piece hpiece)
  · cases h

theorem prefix_of_mem_ancestorsUpTo {limit : Nat} (hp : p.isAbsolute = true)
    (h : q ∈ ancestorsUpTo limit p) : q.isAbsolute = true ∧ q.components <+: p.components := by
  induction limit generalizing p with
  | zero => exact absurd h List.not_mem_nil
  | succ limit ih =>
    rw [ancestorsUpTo] at h
    split at h
    · obtain rfl := List.mem_singleton.mp h
      exact ⟨hp, List.prefix_refl _⟩
    · next parent hparent =>
      rcases List.mem_cons.mp h with rfl | h
      · exact ⟨hp, List.prefix_refl _⟩
      · obtain ⟨habsolute, hinit⟩ := prefix_of_parent? hp hparent
        obtain ⟨hq, hqinit⟩ := ih habsolute h
        exact ⟨hq, hqinit.trans hinit⟩

theorem prefix_of_mem_ancestors (hp : p.isAbsolute = true) (h : q ∈ p.ancestors) :
    q.isAbsolute = true ∧ q.components <+: p.components :=
  prefix_of_mem_ancestorsUpTo hp h

/-! ## Normal paths -/

/-- What normalizing an absolute path has kept, the last component first: names, and below them the
root, with one `..` if that was taken back. -/
def IsKept (kept : List Component) : Prop :=
  ∃ (names : List RawText) (lead : List Component), kept = names.map Component.name ++ lead ∧
    (∀ name ∈ names, (Component.name name).Proper) ∧ (lead = [.root] ∨ lead = [.up, .root])

theorem isKept_foldComponent {kept : List Component} {c : Component} (h : IsKept kept)
    (hc : c.Proper) : IsKept (foldComponent kept c) := by
  obtain ⟨names, lead, rfl, hnames, hlead⟩ := h
  cases c with
  | root => exact ⟨[], [.root], rfl, fun _ hname => absurd hname List.not_mem_nil, .inl rfl⟩
  | here => exact ⟨names, lead, rfl, hnames, hlead⟩
  | name n =>
    refine ⟨n :: names, lead, rfl, fun name hname => ?_, hlead⟩
    rcases List.mem_cons.mp hname with rfl | hname
    · exact hc
    · exact hnames name hname
  | up =>
    cases names with
    | cons n names =>
      exact ⟨names, lead, rfl, fun name hname => hnames name (List.mem_cons_of_mem n hname), hlead⟩
    | nil =>
      -- There is no name to take back: a `..` is put on the root, or taken from it again.
      rcases hlead with rfl | rfl
      · exact ⟨[], _, rfl, hnames, .inr rfl⟩
      · exact ⟨[], _, rfl, hnames, .inl rfl⟩

theorem isKept_foldl {kept : List Component} (h : IsKept kept) (hcs : ∀ c ∈ cs, c.Proper) :
    IsKept (cs.foldl foldComponent kept) := by
  induction cs generalizing kept with
  | nil => exact h
  | cons c cs ih =>
    exact ih (isKept_foldComponent h (hcs c List.mem_cons_self))
      fun c' hc' => hcs c' (List.mem_cons_of_mem c hc')

theorem components_ofComponents (h : ∀ c ∈ cs, c.Proper) :
    (ofComponents (.root :: cs)).components = .root :: cs := by
  show components ⟨slash :: joinWith [slash] (cs.map Component.raw)⟩ = _
  rw [components_slash, below_joinWith_raw h]

theorem proper_up : Component.up.Proper := by
  refine ⟨by decide, by decide⟩

/-- What normalizing keeps of an absolute path: the root, a `..` that could not be folded, names. -/
theorem exists_normalize_eq (hp : p.isAbsolute = true) :
    ∃ (lead : List Component) (names : List RawText),
      p.normalize = ofComponents (lead ++ names.map Component.name) ∧
        (lead = [.root] ∨ lead = [.root, .up]) ∧ ∀ name ∈ names, (Component.name name).Proper := by
  obtain ⟨rest, rfl⟩ := exists_raw_of_isAbsolute hp
  have hroot : IsKept [.root] :=
    ⟨[], [.root], rfl, fun _ hname => absurd hname List.not_mem_nil, .inl rfl⟩
  obtain ⟨names, lead, hkept, hnames, hlead⟩ := isKept_foldl hroot fun c => proper_of_mem_below
  refine ⟨lead.reverse, names.reverse, ?_, ?_, fun name hname =>
    hnames name (List.mem_reverse.mp hname)⟩
  · show ofComponents (((components ⟨slash :: rest⟩).foldl foldComponent []).reverse) = _
    rw [components_slash, List.foldl_cons]
    show ofComponents (((below rest).foldl foldComponent [.root]).reverse) = _
    rw [hkept, List.reverse_append, List.map_reverse]
  · rcases hlead with rfl | rfl
    · exact .inl rfl
    · exact .inr rfl

theorem components_ofComponents_lead {lead : List Component} {names : List RawText}
    (hlead : lead = [.root] ∨ lead = [.root, .up])
    (hnames : ∀ name ∈ names, (Component.name name).Proper) :
    (ofComponents (lead ++ names.map Component.name)).isAbsolute = true ∧
      (ofComponents (lead ++ names.map Component.name)).components =
        lead ++ names.map Component.name := by
  have hproper : ∀ c ∈ names.map Component.name, c.Proper := List.forall_mem_map.mpr hnames
  rcases hlead with rfl | rfl
  · exact ⟨isAbsolute_slash _, components_ofComponents hproper⟩
  · refine ⟨isAbsolute_slash _, components_ofComponents fun c hc => ?_⟩
    rcases List.mem_cons.mp hc with rfl | hc
    · exact proper_up
    · exact hproper c hc

/-- A normal absolute path is names below the root, or below a `..` that could not be folded. -/
theorem components_normalize (hp : p.isAbsolute = true) :
    p.normalize.isAbsolute = true ∧ ∃ (lead : List Component) (names : List RawText),
      p.normalize.components = lead ++ names.map Component.name ∧
        (lead = [.root] ∨ lead = [.root, .up]) := by
  obtain ⟨lead, names, hnormal, hlead, hnames⟩ := exists_normalize_eq hp
  obtain ⟨habsolute, hcomponents⟩ := components_ofComponents_lead hlead hnames
  rw [hnormal]
  exact ⟨habsolute, lead, names, hcomponents, hlead⟩

end Path

end Typesweep
