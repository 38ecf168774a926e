import Typesweep.Proofs.Path.Normal

/-!
# Paths above and paths relative to another one

What stands above a path is a beginning of its bytes, and of a path below another one the bytes that
are left name the components below it.

* `prefix_raw_of_mem_ancestors`: the bytes of the paths above.
* `parent?_ofComponents`, `exists_of_mem_ancestors`: the paths above a tidy one.
* `exists_of_relativeTo?`, `relativeTo?_ofComponents`: what is left below another path.
* `isAbove_normalize`: a path whose components go on with names.
-/

namespace Typesweep

open RawText (slash dot)

namespace Path

open Component Text

variable {p q base : Path} {t : RawText} {segments pieces : List RawText} {cs ds : List Component}
  {c : Component}

/-! ## The paths above -/

theorem joinWith_prefix (h : pieces <+: segments) :
    joinWith [slash] pieces <+: joinWith [slash] segments := by
  obtain ⟨more, rfl⟩ := h
  induction pieces with
  | nil => exact List.nil_prefix
  | cons piece pieces ih =>
    cases pieces with
    | nil =>
      cases more with
      | nil => exact List.prefix_refl _
      | cons next more => exact ⟨[slash] ++ joinWith [slash] (next :: more), by simp [joinWith]⟩
    | cons second pieces =>
      rw [joinWith_cons_cons, List.cons_append, List.cons_append, joinWith_cons_cons]
      exact (List.prefix_append_right_inj _).mpr ih

/-- The bytes of a path are put together of its start and the segments after it. -/
theorem assemble_split (p : Path) : assemble p.split.1 p.split.2 = p.raw := by
  have hjoin : joinWith [slash] p.segments = p.raw := joinWith_splitOn slash p.raw
  obtain ⟨first, rest, hsegments⟩ := List.exists_cons_of_ne_nil (splitOn_ne_nil slash p.raw)
  have hsplit : p.segments = first :: rest := hsegments
  rw [hsplit] at hjoin
  cases hp : p.isAbsolute with
  | true =>
    obtain ⟨below, rfl⟩ := exists_raw_of_isAbsolute hp
    rw [split_slash]
    exact congrArg (slash :: ·) (joinWith_splitOn slash below)
  | false =>
    by_cases hhere : first = [dot]
    · have hlead : p.split = ([dot], rest) := by simp [split, hsplit, hp, hhere]
      rw [hlead, ← hjoin, hhere, joinWith_cons_eq]
      rfl
    · have hlead : p.split = ([], first :: rest) := by simp [split, hsplit, hp, hhere]
      rw [hlead, ← hjoin]
      rfl

theorem assemble_prefix (lead : RawText) (h : pieces <+: segments) :
    assemble lead pieces <+: assemble lead segments := by
  unfold assemble
  split
  · obtain ⟨more, rfl⟩ := h
    exact ⟨more.flatMap (slash :: ·), by rw [List.flatMap_append, List.append_assoc]⟩
  · exact (List.prefix_append_right_inj _).mpr <| joinWith_prefix h

theorem prefix_raw_of_parent? (h : p.parent? = some q) : q.raw <+: p.raw := by
  unfold parent? at h
  dsimp only at h
  split at h
  · split at h
    · obtain rfl := Option.some.inj h
      exact List.nil_prefix
    · cases h
  · obtain rfl := Option.some.inj h
    have hinit : dropNoiseEnd (dropNoiseEnd p.split.2).dropLast <+: p.split.2 :=
      (prefix_dropNoiseEnd _).trans ((List.dropLast_prefix _).trans (prefix_dropNoiseEnd _))
    have hprefix := assemble_prefix p.split.1 hinit
    rwa [assemble_split] at hprefix

/-- What stands above a path keeps its spelling. -/
theorem prefix_raw_of_mem_ancestors (h : q ∈ p.ancestors) : q.raw <+: p.raw := by
  have hlimit : ∀ (limit : Nat) (p : Path), q ∈ ancestorsUpTo limit p → q.raw <+: p.raw := by
    intro limit
    induction limit with
    | zero => exact fun _ h => absurd h List.not_mem_nil
    | succ limit ih =>
      intro p h
      rw [ancestorsUpTo] at h
      split at h
      · exact List.mem_singleton.mp h ▸ List.prefix_refl _
      · next parent hparent =>
        rcases List.mem_cons.mp h with rfl | h
        · exact List.prefix_refl _
        · exact (ih parent h).trans (prefix_raw_of_parent? hparent)
  exact hlimit _ p h

/-! ## Tidy paths -/

/-- An absolute path that is written without superfluous slashes and dots. -/
def IsTidy (p : Path) : Prop :=
  ∃ cs : List Component, (∀ c ∈ cs, c.Proper) ∧ p = ofComponents (.root :: cs)

theorem isAbsolute_ofComponents (cs : List Component) :
    (ofComponents (.root :: cs)).isAbsolute = true :=
  isAbsolute_slash _

theorem IsNormal.isTidy (h : p.IsNormal) : p.IsTidy := by
  obtain ⟨lead, names, hnormal, hlead, hnames⟩ := exists_normalize_eq h.1
  have hproper : ∀ c ∈ names.map Component.name, c.Proper := List.forall_mem_map.mpr hnames
  rw [h.2] at hnormal
  rcases hlead with rfl | rfl
  · exact ⟨_, hproper, hnormal⟩
  · exact ⟨_, List.forall_mem_cons.mpr ⟨proper_up, hproper⟩, hnormal⟩

theorem IsTidy.isAbsolute (h : p.IsTidy) : p.isAbsolute = true := by
  obtain ⟨cs, -, rfl⟩ := h
  exact isAbsolute_ofComponents cs

theorem IsTidy.child {name : RawText} (h : p.IsTidy) (hname : (Component.name name).Proper) :
    (p.child name).IsTidy := by
  obtain ⟨cs, hcs, rfl⟩ := h
  exact ⟨_, List.forall_mem_append.mpr ⟨hcs, List.forall_mem_singleton.mpr hname⟩,
    child_ofComponents hcs hname⟩

theorem isNoise_raw (h : c.Proper) : isNoise c.raw = false := by
  by_contra hnoise
  have hnone := ofSegment?_eq_none (by simpa using hnoise)
  rw [h.1] at hnone
  cases hnone

theorem splitOn_joinWith_raw (hne : cs ≠ []) (h : ∀ c ∈ cs, c.Proper) :
    splitOn slash (joinWith [slash] (cs.map Component.raw)) = cs.map Component.raw := by
  refine splitOn_joinWith (by simpa using hne) fun piece hpiece => ?_
  obtain ⟨c, hc, rfl⟩ := List.mem_map.mp hpiece
  exact (h c hc).2

theorem dropNoiseEnd_eq_self (h : ∀ piece, pieces.getLast? = some piece → isNoise piece = false) :
    dropNoiseEnd pieces = pieces :=
  List.rdropWhile_eq_self_iff.mpr fun hne => by
    simpa using h _ (List.getLast?_eq_some_getLast hne)

theorem dropNoiseEnd_map_raw (h : ∀ c ∈ cs, c.Proper) :
    dropNoiseEnd (cs.map Component.raw) = cs.map Component.raw := by
  refine dropNoiseEnd_eq_self fun piece hpiece => ?_
  obtain ⟨c, hc, rfl⟩ := List.mem_map.mp (List.mem_of_getLast? hpiece)
  exact isNoise_raw (h c hc)

/-- The path above a tidy one. -/
theorem parent?_ofComponents (h : ∀ c ∈ cs, c.Proper) (hc : c.Proper) :
    (ofComponents (.root :: (cs ++ [c]))).parent? = some (ofComponents (.root :: cs)) := by
  have hall : ∀ c' ∈ cs ++ [c], c'.Proper := by
    intro c' hc'
    rcases List.mem_append.mp hc' with hc' | hc'
    · exact h c' hc'
    · exact List.mem_singleton.mp hc' ▸ hc
  have hsplit : split (ofComponents (.root :: (cs ++ [c]))) =
      ([slash], (cs ++ [c]).map Component.raw) := by
    show split ⟨slash :: joinWith [slash] ((cs ++ [c]).map Component.raw)⟩ = _
    rw [split_slash, splitOn_joinWith_raw (by simp) hall]
  unfold parent?
  rw [hsplit]
  dsimp only
  rw [dropNoiseEnd_map_raw hall]
  split
  · next hnil => simp at hnil
  · rw [List.map_append, List.map_singleton, List.dropLast_concat, dropNoiseEnd_map_raw h]
    rfl

theorem parent?_child {name : RawText} (hp : p.IsTidy) (hname : (Component.name name).Proper) :
    (p.child name).parent? = some p := by
  obtain ⟨cs, hcs, rfl⟩ := hp
  rw [child_ofComponents hcs hname, parent?_ofComponents hcs hname]

theorem exists_of_mem_ancestors (h : ∀ c ∈ cs, c.Proper)
    (hq : q ∈ (ofComponents (.root :: cs)).ancestors) :
    ∃ cs', cs' <+: cs ∧ q = ofComponents (.root :: cs') := by
  have hlimit : ∀ (limit : Nat) (cs : List Component), (∀ c ∈ cs, c.Proper) →
      q ∈ ancestorsUpTo limit (ofComponents (.root :: cs)) →
        ∃ cs', cs' <+: cs ∧ q = ofComponents (.root :: cs') := by
    intro limit
    induction limit with
    | zero => exact fun _ _ hq => absurd hq List.not_mem_nil
    | succ limit ih =>
      intro cs h hq
      rw [ancestorsUpTo] at hq
      rcases List.eq_nil_or_concat cs with rfl | ⟨cs, c, rfl⟩
      · exact ⟨[], List.prefix_refl _, List.mem_singleton.mp hq⟩
      · rw [List.concat_eq_append] at h hq ⊢
        rw [List.forall_mem_append, List.forall_mem_singleton] at h
        rw [parent?_ofComponents h.1 h.2] at hq
        rcases List.mem_cons.mp hq with rfl | hq
        · exact ⟨_, List.prefix_refl _, rfl⟩
        · obtain ⟨cs', hcs', hq⟩ := ih cs h.1 hq
          exact ⟨cs', hcs'.trans (List.prefix_append _ _), hq⟩
  exact hlimit _ cs h hq

/-! ## What is left below another path -/

/-- The path is not written with a slash or `/.` at its end. -/
def IsTrimmed (p : Path) : Prop :=
  ¬[slash] <:+ p.raw ∧ ¬[slash, dot] <:+ p.raw

/-- The last segment of a trimmed path is a component, unless it is the only one. -/
theorem IsTrimmed.below_ne_nil (h : p.IsTrimmed) (start : RawText)
    (heq : p.raw = start ++ slash :: t) : below t ≠ [] := by
  intro hnone
  obtain ⟨lead, last, hpieces⟩ :=
    (List.eq_nil_or_concat (splitOn slash t)).resolve_left (splitOn_ne_nil slash t)
  rw [List.concat_eq_append] at hpieces
  obtain ⟨start', hstart'⟩ : ∃ start', p.raw = start' ++ slash :: last := by
    have hjoin := joinWith_splitOn slash t
    rw [hpieces] at hjoin
    by_cases hlead : lead = []
    · rw [hlead] at hjoin
      exact ⟨start, heq.trans (by rw [← hjoin]; rfl)⟩
    · rw [joinWith_append hlead (List.cons_ne_nil _ _)] at hjoin
      exact ⟨start ++ slash :: joinWith [slash] lead, by rw [heq, ← hjoin, List.append_assoc]; rfl⟩
  have hlast : ofSegment? last = none := by
    refine List.filterMap_eq_nil_iff.mp hnone last ?_
    rw [hpieces]
    exact List.mem_append_right lead (List.mem_singleton_self last)
  have hends : ∀ tail : RawText, last = tail → slash :: tail <:+ p.raw := by
    rintro tail rfl
    exact ⟨start', hstart'.symm⟩
  unfold ofSegment? at hlast
  split at hlast
  · next hnil => exact h.1 (hends [] hnil)
  · split at hlast
    · next hdot => exact h.2 (hends [dot] hdot)
    · split at hlast <;> cases hlast

theorem isTrimmed_joinWith (hslash : ∀ piece ∈ pieces, slash ∉ piece)
    (hlast : ∀ piece, pieces.getLast? = some piece → isNoise piece = false) :
    IsTrimmed ⟨joinWith [slash] pieces⟩ := by
  have hends : ∀ tail : RawText, slash ∉ tail → isNoise tail = true →
      ¬slash :: tail <:+ joinWith [slash] pieces := by
    rintro tail htail hnoise ⟨start, hstart⟩
    cases pieces with
    | nil => simp [joinWith] at hstart
    | cons first rest =>
      have hpieces := splitOn_joinWith (List.cons_ne_nil first rest) hslash
      rw [← hstart, splitOn_append_sep, splitOn_eq_singleton htail] at hpieces
      have hnot := hlast tail (by rw [← hpieces]; simp)
      rw [hnoise] at hnot
      cases hnot
  exact ⟨hends [] (by simp) (by decide), hends [dot] (by decide) (by decide)⟩

theorem isSome_ofSegment? {piece : RawText} (h : isNoise piece = false) :
    ∃ c, ofSegment? piece = some c := by
  rw [isNoise, Bool.or_eq_false_iff, decide_eq_false_iff_not, decide_eq_false_iff_not] at h
  rw [ofSegment?, if_neg h.1, if_neg h.2]
  split
  · exact ⟨_, rfl⟩
  · exact ⟨_, rfl⟩

theorem filterMap_dropComponents (count : Nat) (pieces : List RawText) :
    (dropComponents count pieces).filterMap ofSegment? =
      (pieces.filterMap ofSegment?).drop count := by
  fun_induction dropComponents count pieces with
  | case1 => rfl
  | case2 => rfl
  | case3 count piece rest hnoise ih =>
    rw [ih, List.filterMap_cons, ofSegment?_eq_none hnoise]
  | case4 count piece rest hnoise ih =>
    obtain ⟨c, hc⟩ := isSome_ofSegment? (by simpa using hnoise)
    rw [ih, List.filterMap_cons, hc]
    rfl

theorem filterMap_dropWhile_isNoise (pieces : List RawText) :
    (pieces.dropWhile isNoise).filterMap ofSegment? = pieces.filterMap ofSegment? := by
  have hnone : (pieces.takeWhile isNoise).filterMap ofSegment? = [] :=
    List.filterMap_eq_nil_iff.mpr fun piece hpiece =>
      ofSegment?_eq_none (List.mem_takeWhile_imp hpiece)
  conv_rhs => rw [← List.takeWhile_append_dropWhile (p := isNoise) (l := pieces),
    List.filterMap_append, hnone, List.nil_append]

theorem filterMap_dropNoiseEnd (pieces : List RawText) :
    (dropNoiseEnd pieces).filterMap ofSegment? = pieces.filterMap ofSegment? := by
  rw [dropNoiseEnd, List.filterMap_reverse, filterMap_dropWhile_isNoise, List.filterMap_reverse,
    List.reverse_reverse]

theorem dropComponents_suffix (count : Nat) (pieces : List RawText) :
    dropComponents count pieces <:+ pieces := by
  fun_induction dropComponents count pieces with
  | case1 => exact List.suffix_refl _
  | case2 => exact List.suffix_refl _
  | case3 count piece rest _ ih => exact ih.trans (List.suffix_cons piece rest)
  | case4 count piece rest _ ih => exact ih.trans (List.suffix_cons piece rest)

/-- Segments without those at the two ends that are no components. -/
theorem isNoise_ends (pieces : List RawText) :
    (∀ piece, (dropNoiseEnd (pieces.dropWhile isNoise)).head? = some piece →
      isNoise piece = false) ∧
    ∀ piece, (dropNoiseEnd (pieces.dropWhile isNoise)).getLast? = some piece →
      isNoise piece = false := by
  constructor
  · intro piece hpiece
    obtain ⟨more, hmore⟩ := prefix_dropNoiseEnd (pieces.dropWhile isNoise)
    obtain ⟨rest, hrest⟩ := List.head?_eq_some_iff.mp hpiece
    have hdrop : pieces.dropWhile isNoise = piece :: (rest ++ more) := by
      rw [← hmore, hrest, List.cons_append]
    have hne : pieces.dropWhile isNoise ≠ [] := by
      rw [hdrop]
      exact List.cons_ne_nil _ _
    simpa [hdrop] using List.head_dropWhile_not isNoise hne
  · intro piece hpiece
    have hne : dropNoiseEnd (pieces.dropWhile isNoise) ≠ [] := by
      intro hnil
      rw [hnil] at hpiece
      cases hpiece
    have hlast := List.rdropWhile_last_not isNoise (pieces.dropWhile isNoise) hne
    rw [List.getLast?_eq_some_getLast hne] at hpiece
    rw [← Option.some.inj hpiece]
    exact Bool.not_eq_true _ ▸ hlast

theorem isAbsolute_joinWith_of_head? (hslash : ∀ piece ∈ pieces, slash ∉ piece)
    (hfirst : pieces.head? ≠ some []) : isAbsolute ⟨joinWith [slash] pieces⟩ = false := by
  cases pieces with
  | nil => rfl
  | cons piece rest =>
    cases piece with
    | nil => exact absurd rfl hfirst
    | cons c piece =>
      have hc := hslash (c :: piece) List.mem_cons_self
      rw [List.mem_cons, not_or] at hc
      rw [joinWith_cons_eq, isAbsolute, List.cons_append]
      simpa using fun heq : c = slash => hc.1 heq.symm

theorem isAbsolute_joinWith (hslash : ∀ piece ∈ pieces, slash ∉ piece)
    (hfirst : ∀ piece, pieces.head? = some piece → isNoise piece = false) :
    isAbsolute ⟨joinWith [slash] pieces⟩ = false :=
  isAbsolute_joinWith_of_head? hslash fun hnil => absurd (hfirst [] hnil) (by decide)

/-- What is left of a path below another one. -/
theorem exists_of_relativeTo? (hp : p.isAbsolute = true) (hbase : base.isAbsolute = true)
    (h : p.relativeTo? base = some q) :
    q.isAbsolute = false ∧ q.IsTrimmed ∧ p.components = base.components ++ below q.raw := by
  obtain ⟨rest, rfl⟩ := exists_raw_of_isAbsolute hp
  obtain ⟨lead, rfl⟩ := exists_raw_of_isAbsolute hbase
  unfold relativeTo? at h
  rw [split_slash, components_slash, components_slash] at h
  dsimp only at h
  split at h
  · next hprefix =>
    rw [if_neg (by simp), if_neg (by simp)] at h
    obtain rfl := Option.some.inj h
    rw [List.length_cons, Nat.add_sub_cancel]
    have hslash : ∀ piece ∈ dropNoiseEnd ((dropComponents (below lead).length
        (splitOn slash rest)).dropWhile isNoise), slash ∉ piece := fun piece hpiece =>
      sep_notMem_of_mem_splitOn ((dropComponents_suffix _ _).subset
        ((List.dropWhile_suffix _).subset ((prefix_dropNoiseEnd _).subset hpiece)))
    obtain ⟨hfirst, hlast⟩ := isNoise_ends (dropComponents (below lead).length (splitOn slash rest))
    refine ⟨isAbsolute_joinWith hslash hfirst, isTrimmed_joinWith hslash hlast, ?_⟩
    rw [components_slash, components_slash, below_joinWith hslash, filterMap_dropNoiseEnd,
      filterMap_dropWhile_isNoise, filterMap_dropComponents]
    obtain ⟨more, hmore⟩ := List.isPrefixOf_iff_prefix.mp hprefix
    have hbelow : below rest = below lead ++ more := (List.cons.inj hmore).2.symm
    show _ = (Component.root :: below lead) ++ (below rest).drop (below lead).length
    rw [hbelow, List.drop_left, List.cons_append]
  · cases h

theorem dropComponents_map_raw (h : ∀ c ∈ cs, c.Proper) (more : List RawText) :
    dropComponents cs.length (cs.map Component.raw ++ more) = more := by
  induction cs with
  | nil => exact dropComponents.eq_1 more
  | cons c cs ih =>
    rw [List.forall_mem_cons] at h
    rw [List.length_cons, List.map_cons, List.cons_append, dropComponents, isNoise_raw h.1,
      if_neg Bool.false_ne_true, ih h.2]

theorem dropWhile_isNoise_map_raw (h : ∀ c ∈ cs, c.Proper) :
    (cs.map Component.raw).dropWhile isNoise = cs.map Component.raw := by
  cases cs with
  | nil => rfl
  | cons c cs =>
    exact List.dropWhile_cons_of_neg (by simp [isNoise_raw (h c List.mem_cons_self)])

/-- What is left of a tidy path is the components that are left, joined by slashes. -/
theorem relativeTo?_ofComponents (hcs : ∀ c ∈ cs, c.Proper) (hds : ∀ c ∈ ds, c.Proper) :
    (ofComponents (.root :: (cs ++ ds))).relativeTo? (ofComponents (.root :: cs)) =
      some ⟨joinWith [slash] (ds.map Component.raw)⟩ := by
  have hall : ∀ c ∈ cs ++ ds, c.Proper := List.forall_mem_append.mpr ⟨hcs, hds⟩
  have hdrop : dropNoiseEnd ((dropComponents cs.length
      (splitOn slash (joinWith [slash] ((cs ++ ds).map Component.raw)))).dropWhile isNoise) =
        ds.map Component.raw := by
    by_cases hne : cs ++ ds = []
    · obtain ⟨rfl, rfl⟩ := List.append_eq_nil_iff.mp hne
      rfl
    · rw [splitOn_joinWith_raw hne hall, List.map_append, dropComponents_map_raw hcs,
        dropWhile_isNoise_map_raw hds, dropNoiseEnd_map_raw hds]
  unfold relativeTo?
  rw [components_ofComponents hall, components_ofComponents hcs]
  have hprefix : (Component.root :: cs).isPrefixOf (.root :: (cs ++ ds)) = true :=
    List.isPrefixOf_iff_prefix.mpr ⟨ds, rfl⟩
  have hsplit : split (ofComponents (.root :: (cs ++ ds))) =
      ([slash], splitOn slash (joinWith [slash] ((cs ++ ds).map Component.raw))) := split_slash _
  rw [if_pos hprefix, hsplit]
  dsimp only
  rw [if_neg (by simp), if_neg (by simp), List.length_cons, Nat.add_sub_cancel, hdrop]

/-! ## Components below a normal path -/

theorem map_raw_map_name (names : List RawText) :
    (names.map Component.name).map Component.raw = names := by
  rw [List.map_map, show Component.raw ∘ Component.name = id from rfl, List.map_id]

theorem below_joinWith_names {names : List RawText}
    (h : ∀ name ∈ names, (Component.name name).Proper) :
    below (joinWith [slash] names) = names.map Component.name := by
  have hbelow := below_joinWith_raw (List.forall_mem_map.mpr h)
  rwa [map_raw_map_name] at hbelow

theorem getLast?_joinWith_names {names : List RawText}
    (h : ∀ name ∈ names, (Component.name name).Proper) :
    (joinWith [slash] names).getLast? ≠ some slash := by
  have hlast := getLast?_joinWith_raw (List.forall_mem_map.mpr h)
  rwa [map_raw_map_name] at hlast

theorem under_ofComponents (hcs : ∀ c ∈ cs, c.Proper) {names : List RawText}
    (h : ∀ name ∈ names, (Component.name name).Proper) :
    (ofComponents (.root :: cs)).under names =
      ofComponents (.root :: (cs ++ names.map Component.name)) := by
  induction names generalizing cs with
  | nil =>
    rw [List.map_nil, List.append_nil]
    rfl
  | cons name names ih =>
    rw [List.forall_mem_cons] at h
    have hall : ∀ c ∈ cs ++ [Component.name name], c.Proper :=
      List.forall_mem_append.mpr ⟨hcs, List.forall_mem_singleton.mpr h.1⟩
    show ((ofComponents (.root :: cs)).child name).under names = _
    rw [child_ofComponents hcs h.1, ih hall h.2, List.append_assoc]
    rfl

theorem relativeTo?_under (hbase : base.IsNormal) {names : List RawText}
    (h : ∀ name ∈ names, (Component.name name).Proper) :
    (base.under names).relativeTo? base = some ⟨joinWith [slash] names⟩ := by
  obtain ⟨cs, hcs, rfl⟩ := hbase.isTidy
  rw [under_ofComponents hcs h, relativeTo?_ofComponents hcs (List.forall_mem_map.mpr h),
    map_raw_map_name]

theorem components_under (hp : p.isAbsolute = true) {names : List RawText}
    (h : ∀ name ∈ names, (Component.name name).Proper) :
    (p.under names).isAbsolute = true ∧
      (p.under names).components = p.components ++ names.map Component.name := by
  induction names generalizing p with
  | nil => exact ⟨hp, (List.append_nil _).symm⟩
  | cons name names ih =>
    rw [List.forall_mem_cons] at h
    obtain ⟨habsolute, hcomponents⟩ := ih (isAbsolute_child hp name) h.2
    refine ⟨habsolute, hcomponents.trans ?_⟩
    rw [components_child_of_proper hp h.1, List.append_assoc]
    rfl

/-- A path leads down along other names to another path. -/
theorem under_inj (hp : p.isAbsolute = true) {names more : List RawText}
    (hnames : ∀ name ∈ names, (Component.name name).Proper)
    (hmore : ∀ name ∈ more, (Component.name name).Proper) (h : p.under names = p.under more) :
    names = more := by
  have hcomponents := (components_under hp hnames).2
  rw [h, (components_under hp hmore).2] at hcomponents
  have hraws := congrArg (List.map Component.raw) (List.append_cancel_left hcomponents)
  rw [map_raw_map_name, map_raw_map_name] at hraws
  exact hraws.symm

theorem not_isAbove_self (hp : p.isAbsolute = true) : ¬ p.IsAbove p := by
  rintro ⟨names, hne, hnames, heq⟩
  have hnil : names = [] := under_inj hp hnames nofun heq.symm
  exact hne hnil

/-- A path between another one and what lies below an entry of it is the entry or lies below it. -/
theorem IsAbove.eq_child_or_isAbove {name : RawText} (hp : p.isAbsolute = true)
    (hname : (Component.name name).Proper) {file : Path} (hdir : p.IsAbove q)
    (hbelow : q.IsAbove file) (hfile : file = p.child name ∨ (p.child name).IsAbove file) :
    (p.child name).IsAbove file ∧ (q = p.child name ∨ (p.child name).IsAbove q) := by
  obtain ⟨names, hne, hnames, rfl⟩ := hdir
  obtain ⟨more, hmore, hproper, rfl⟩ := hbelow
  obtain ⟨first, names, rfl⟩ := List.exists_cons_of_ne_nil hne
  have hall : ∀ name ∈ first :: names ++ more, (Component.name name).Proper :=
    List.forall_mem_append.mpr ⟨hnames, hproper⟩
  rw [← under_append] at hfile ⊢
  obtain ⟨rest, hrest, heq⟩ : ∃ rest : List RawText, (∀ name ∈ rest, (Component.name name).Proper) ∧
      p.under (first :: names ++ more) = (p.child name).under rest := by
    rcases hfile with heq | ⟨rest, -, hrest, heq⟩
    · exact ⟨[], nofun, heq⟩
    · exact ⟨rest, hrest, heq⟩
  have hsame : first :: names ++ more = name :: rest :=
    under_inj hp hall (List.forall_mem_cons.mpr ⟨hname, hrest⟩) heq
  obtain ⟨rfl, rfl⟩ := List.cons.inj hsame
  have hbelow : ∀ names : List RawText, names ≠ [] →
      (∀ name ∈ names, (Component.name name).Proper) →
      (p.child first).IsAbove (p.under (first :: names)) := fun names hne hproper =>
    ⟨names, hne, hproper, rfl⟩
  refine ⟨hbelow _ (by simp [hmore]) hrest, ?_⟩
  by_cases hnil : names = []
  · subst hnil
    exact .inl rfl
  · exact .inr (hbelow names hnil (List.forall_mem_cons.mp hnames).2)

/-- A path whose components go on with names is normalized to the path along these. -/
theorem normalize_eq_under (hbase : base.IsNormal) {names : List RawText}
    (hnames : ∀ name ∈ names, (Component.name name).Proper)
    (h : p.components = base.components ++ names.map Component.name) :
    p.normalize = base.under names :=
  (hbase.under hnames).normalize_eq (h.trans (components_under hbase.1 hnames).2.symm)

/-- A path whose components go on with names lies below. -/
theorem isAbove_normalize (hbase : base.IsNormal) (names : List RawText) (hne : names ≠ [])
    (hnames : ∀ name ∈ names, (Component.name name).Proper)
    (h : p.components = base.components ++ names.map Component.name) :
    base.IsAbove p.normalize :=
  ⟨names, hne, hnames, normalize_eq_under hbase hnames h⟩

end Path

end Typesweep
