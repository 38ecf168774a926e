import Mathlib.Algebra.Group.Nat.Even
import Typesweep.Proofs.FileTree.Follow
import Typesweep.Proofs.Path.Relative

/-!
# What normalizing folds

Reading a path from left to right, each `..` cancels the nearest name that is left before it, and
what cannot be cancelled climbs above the start (`Way`). From this comes one canonical form of the
path: names below the root, or names below as many `..` as the path climbs.

Normalizing gives this form for a relative path that climbs at most once, and for an absolute one
that climbs an even number of times. It takes back whatever was kept last, so that the second `..`
of `../..` cancels the first one, and what is left of `n` climbs is `n % 2` of them, also below the
root (`folded_eq`). What it has kept it keeps when it goes on, so that a path can be resolved in
several steps.

* `folded`, `folded_join`: what normalizing keeps, component by component.
* `normalize_isCanonical_iff`: where it gives the canonical form, and what it gives elsewhere.
* `absolutize_join`: resolving in two steps is resolving in one.
-/

namespace Typesweep

open RawText (slash dot)

namespace Path

open Component Text

variable {p q : Path} {cs : List Component} {c : Component} {name : RawText}

/-! ## Starts and steps -/

/-- What a path starts with before its names and `..`: the root, or nothing. -/
def start (p : Path) : List Component :=
  if p.isAbsolute then [.root] else []

theorem start_of_isAbsolute (h : p.isAbsolute = true) : p.start = [.root] :=
  if_pos h

theorem start_of_relative (h : p.isAbsolute = false) : p.start = [] := by
  rw [start, h, if_neg Bool.false_ne_true]

/-- The components of a path are its start and what stands between the slashes; only a `.` at the
start of a relative path is one more. -/
theorem components_eq_start_append (p : Path) :
    p.components = p.start ++ below p.raw ∨
      p.start = [] ∧ p.segments.head? = some [dot] ∧ p.components = .here :: below p.raw := by
  cases hp : p.isAbsolute with
  | true =>
    obtain ⟨rest, rfl⟩ := exists_raw_of_isAbsolute hp
    refine .inl ?_
    rw [components_slash, start_of_isAbsolute hp]
    exact congrArg (Component.root :: ·) (below_append_slash [] rest).symm
  | false =>
    obtain ⟨first, rest, hsegments, hcomponents⟩ := p.exists_segments
    have hbelow : below p.raw = (ofSegment? first).toList ++ rest.filterMap ofSegment? := by
      rw [below, ← segments, hsegments, List.filterMap_cons]
      cases ofSegment? first <;> rfl
    rw [hcomponents, hbelow, start_of_relative hp, leading?, hp, if_neg Bool.false_ne_true]
    by_cases hhere : first = [dot]
    · subst hhere
      exact .inr ⟨rfl, by rw [hsegments]; rfl, rfl⟩
    · rw [if_neg hhere]
      exact .inl rfl

/-- A component that changes nothing can be left out of a fold. -/
theorem foldl_components {α : Type} {f : α → Component → α} (hhere : ∀ a, f a .here = a)
    (a : α) (p : Path) : p.components.foldl f a = (below p.raw).foldl f (p.start.foldl f a) := by
  rcases p.components_eq_start_append with h | ⟨hstart, -, h⟩
  · rw [h, List.foldl_append]
  · rw [h, List.foldl_cons, hhere, hstart]
    rfl

/-- What normalizing keeps of a path, the last component first. -/
def folded (p : Path) : List Component :=
  (below p.raw).foldl foldComponent p.start

theorem foldl_foldComponent (p : Path) : p.components.foldl foldComponent [] = p.folded := by
  have hstart : p.start.foldl foldComponent [] = p.start := by
    unfold start
    split <;> rfl
  rw [foldl_components (fun _ => rfl), hstart, folded]

theorem normalize_eq (p : Path) : p.normalize = ofComponents p.folded.reverse := by
  rw [normalize, foldl_foldComponent]

/-! ## Ways -/

/-- What is left of a path that has been read up to some component. -/
structure Way where
  /-- Number of `..` that found no name to cancel. -/
  climbs : Nat := 0
  /-- The names that no `..` has cancelled, the last one first. -/
  names : List RawText := []

/-- One component more: `..` cancels the last name that is left, and climbs if there is none. -/
def Way.step (w : Way) : Component → Way
  | .name n => { w with names := n :: w.names }
  | .up =>
    match w.names with
    | [] => { w with climbs := w.climbs + 1 }
    | _ :: rest => { w with names := rest }
  | .root => w
  | .here => w

/-- What is left of a path. -/
def way (p : Path) : Way :=
  p.components.foldl Way.step {}

/-- How many steps a path climbs above its start. -/
def climbs (p : Path) : Nat :=
  p.way.climbs

/-- The names that are left of a path, from left to right. -/
def keptNames (p : Path) : List RawText :=
  p.way.names.reverse

/-- The canonical form of a path, as components. Above the root there is nothing to climb to. -/
def canonicalComponents (p : Path) : List Component :=
  (if p.isAbsolute then [.root] else List.replicate p.climbs .up) ++ p.keptNames.map .name

theorem way_eq (p : Path) : p.way = (below p.raw).foldl Way.step {} := by
  have hstart : p.start.foldl Way.step {} = {} := by
    unfold start
    split <;> rfl
  rw [way, foldl_components (fun _ => rfl), hstart]

/-- What normalizing has kept when `w` is left of what it has read: of the climbs every second one
has taken back the one before it. -/
def Way.kept (start : List Component) (w : Way) : List Component :=
  w.names.map .name ++ (List.replicate (w.climbs % 2) .up ++ start)

theorem foldComponent_kept {start : List Component} (hstart : start = [] ∨ start = [.root])
    (w : Way) (hc : c = .up ∨ ∃ name, c = .name name) :
    foldComponent (w.kept start) c = (w.step c).kept start := by
  obtain ⟨climbs, names⟩ := w
  rcases hc with rfl | ⟨name, rfl⟩
  · cases names with
    | cons name names => rfl
    | nil =>
      simp only [Way.kept, Way.step, List.map_nil, List.nil_append]
      rcases Nat.mod_two_eq_zero_or_one climbs with heven | hodd
      · rw [heven, show (climbs + 1) % 2 = 1 by omega]
        rcases hstart with rfl | rfl <;> rfl
      · rw [hodd, show (climbs + 1) % 2 = 0 by omega]
        rfl
  · rfl

theorem foldl_foldComponent_kept {start : List Component} (hstart : start = [] ∨ start = [.root])
    (w : Way) (hcs : ∀ c ∈ cs, c = .up ∨ ∃ name, c = .name name) :
    cs.foldl foldComponent (w.kept start) = (cs.foldl Way.step w).kept start := by
  induction cs generalizing w with
  | nil => rfl
  | cons c cs ih =>
    obtain ⟨hc, hrest⟩ := List.forall_mem_cons.mp hcs
    rw [List.foldl_cons, foldComponent_kept hstart w hc, ih _ hrest, List.foldl_cons]

theorem start_eq_nil_or_root (p : Path) : p.start = [] ∨ p.start = [.root] := by
  unfold start
  split
  · exact .inr rfl
  · exact .inl rfl

/-- Normalizing keeps the names that are left, and one `..` if it climbs an odd number of times. -/
theorem folded_eq (p : Path) : p.folded = p.way.kept p.start := by
  rw [folded, way_eq, ← foldl_foldComponent_kept p.start_eq_nil_or_root {}
    fun c => eq_up_or_name_of_mem_below]
  rfl

/-- Going the way from some place: first up, then down along the names. -/
theorem foldl_walk_way (w : Way) (here : Place)
    (hcs : ∀ c ∈ cs, c = .up ∨ ∃ name, c = .name name) :
    cs.foldl walk (here.take (here.length - w.climbs) ++ w.names.reverse) =
      here.take (here.length - (cs.foldl Way.step w).climbs) ++
        (cs.foldl Way.step w).names.reverse := by
  induction cs generalizing w with
  | nil => rfl
  | cons c cs ih =>
    obtain ⟨hc, hrest⟩ := List.forall_mem_cons.mp hcs
    rw [List.foldl_cons, List.foldl_cons, ← ih (w.step c) hrest]
    congr 1
    obtain ⟨climbs, names⟩ := w
    rcases hc with rfl | ⟨name, rfl⟩
    · cases names with
      | cons name names =>
        simp only [walk, Way.step, List.reverse_cons, ← List.append_assoc, List.dropLast_concat]
      | nil =>
        simp only [walk, Way.step, List.reverse_nil, List.append_nil]
        rw [List.dropLast_eq_take, List.take_take, List.length_take]
        congr 1
        omega
    · simp only [walk, Way.step, List.reverse_cons, List.append_assoc]

theorem foldl_walk_components (p : Path) (here : Place) :
    p.components.foldl walk here = here.take (here.length - p.climbs) ++ p.keptNames := by
  have hstart : p.start.foldl walk here = here := by
    unfold start
    split <;> rfl
  rw [foldl_components (fun _ => rfl), hstart, climbs, keptNames, way_eq,
    ← foldl_walk_way {} here fun c => eq_up_or_name_of_mem_below]
  simp

/-! ## Normal forms -/

/-- The names that are left are names of the path. -/
theorem proper_of_mem_names {w : Way} (hw : ∀ name ∈ w.names, (Component.name name).Proper)
    (hcs : ∀ c ∈ cs, c.Proper) :
    ∀ name ∈ (cs.foldl Way.step w).names, (Component.name name).Proper := by
  induction cs generalizing w with
  | nil => exact hw
  | cons c cs ih =>
    obtain ⟨hc, hrest⟩ := List.forall_mem_cons.mp hcs
    refine ih ?_ hrest
    cases c with
    | root => exact hw
    | here => exact hw
    | name name => exact List.forall_mem_cons.mpr ⟨hc, hw⟩
    | up =>
      obtain ⟨climbs, names⟩ := w
      cases names with
      | nil => exact hw
      | cons name names => exact (List.forall_mem_cons.mp hw).2

theorem proper_keptNames (h : name ∈ p.keptNames) : (Component.name name).Proper := by
  rw [keptNames, way_eq, List.mem_reverse] at h
  exact proper_of_mem_names (fun _ hnil => absurd hnil List.not_mem_nil)
    (fun c => proper_of_mem_below) name h

/-- Components that a path is made of, after its start, are those that it has. -/
theorem components_ofComponents_append {lead : List Component} (hlead : lead = [] ∨ lead = [.root])
    (h : ∀ c ∈ cs, c.Proper) : (ofComponents (lead ++ cs)).components = lead ++ cs ∧
      (ofComponents (lead ++ cs)).start = lead := by
  rcases hlead with rfl | rfl
  · have hraw : (ofComponents cs).raw = joinWith [slash] (cs.map Component.raw) := by
      show rawOf cs = _
      unfold rawOf
      split
      · rfl
      · exact absurd List.mem_cons_self (h .root List.mem_cons_self).2
      · rfl
    have hrelative : (ofComponents cs).isAbsolute = false := by
      have hslash : ∀ piece ∈ cs.map Component.raw, slash ∉ piece :=
        List.forall_mem_map.mpr fun c hc => (h c hc).2
      have hnoise : ∀ piece ∈ cs.map Component.raw, isNoise piece = false :=
        List.forall_mem_map.mpr fun c hc => isNoise_raw (h c hc)
      rw [isAbsolute, hraw]
      exact isAbsolute_joinWith hslash fun piece hpiece => hnoise piece (List.mem_of_head? hpiece)
    have hbelow : below (ofComponents cs).raw = cs := by
      rw [hraw, below_joinWith_raw h]
    have hstart := start_of_relative hrelative
    refine ⟨?_, hstart⟩
    rcases (ofComponents cs).components_eq_start_append with heq | ⟨-, hhead, -⟩
    · show (ofComponents cs).components = cs
      rw [heq, hstart, hbelow]
      rfl
    · cases cs with
      | nil => cases hhead
      | cons c cs =>
        rw [segments, hraw, splitOn_joinWith_raw (List.cons_ne_nil _ _) h] at hhead
        have hdot := isNoise_raw (h c List.mem_cons_self)
        rw [Option.some.inj hhead] at hdot
        cases hdot
  · exact ⟨components_ofComponents h, start_of_isAbsolute (isAbsolute_ofComponents cs)⟩

/-- From left to right, normalizing keeps the start, a `..` if the path climbs an odd number of
times, and the names that are left. -/
theorem reverse_folded (p : Path) : p.folded.reverse =
    p.start ++ (List.replicate (p.climbs % 2) .up ++ p.keptNames.map .name) := by
  have hstart : p.start.reverse = p.start := by
    rcases p.start_eq_nil_or_root with h | h <;> rw [h] <;> rfl
  rw [folded_eq, Way.kept, List.reverse_append, List.reverse_append, hstart,
    List.reverse_replicate, ← List.map_reverse, List.append_assoc]
  rfl

theorem components_normalize_eq (p : Path) :
    p.normalize.components = p.start ++ (List.replicate (p.climbs % 2) .up ++
      p.keptNames.map .name) ∧ p.normalize.start = p.start := by
  rw [normalize_eq, reverse_folded]
  refine components_ofComponents_append p.start_eq_nil_or_root ?_
  refine List.forall_mem_append.mpr ⟨fun c hc => ?_, List.forall_mem_map.mpr fun name hname =>
    proper_keptNames hname⟩
  rw [List.eq_of_mem_replicate hc]
  exact proper_up

/-- `q` is the canonical form of `p`, which is the same place by its names alone. -/
structure IsCanonical (p q : Path) : Prop where
  components_eq : q.components = p.canonicalComponents
  spelled : q = ofComponents q.components
  /-- Both lead to the same place, an absolute path from the top and a relative one from any. -/
  same_place : ∀ here : Place, (p.isAbsolute = true → here = []) →
    q.components.foldl walk here = p.components.foldl walk here
  up_notMem : p.isAbsolute = true → .up ∉ q.components
  leading_ups : p.isAbsolute = false →
    q.components.takeWhile (fun c => c = .up) = List.replicate p.climbs .up

theorem takeWhile_up_append_names (n : Nat) (names : List RawText) :
    (List.replicate n Component.up ++ names.map Component.name).takeWhile (fun c => c = .up) =
      List.replicate n .up := by
  rw [List.takeWhile_append_of_pos (by simp)]
  cases names <;> simp

theorem foldl_walk_replicate_up (n : Nat) (here : Place) :
    (List.replicate n Component.up).foldl walk here = here.take (here.length - n) := by
  induction n generalizing here with
  | zero => simp
  | succ n ih =>
    rw [List.replicate_succ, List.foldl_cons, ih, walk, List.dropLast_eq_take, List.take_take,
      List.length_take]
    congr 1
    omega

/-- A path with the canonical components is the canonical form. -/
theorem isCanonical_of_components_eq (h : q.components = p.canonicalComponents)
    (hspelled : q = ofComponents q.components) : p.IsCanonical q where
  components_eq := h
  spelled := hspelled
  same_place := fun here htop => by
    rw [h, foldl_walk_components, canonicalComponents, List.foldl_append, foldl_walk_names]
    congr 1
    split
    · next hp =>
      rw [htop hp, List.take_nil]
      rfl
    · exact foldl_walk_replicate_up p.climbs here
  up_notMem := fun hp => by
    rw [h, canonicalComponents, if_pos hp]
    simp
  leading_ups := fun hp => by
    rw [h, canonicalComponents, hp, if_neg Bool.false_ne_true, takeWhile_up_append_names]

/-- A relative path that climbs at most once, or an absolute one that climbs an even number of
times. -/
def FoldsFully (p : Path) : Prop :=
  if p.isAbsolute then Even p.climbs else p.climbs ≤ 1

/-- Normalizing gives the canonical form of a relative path that climbs at most once, and of an
absolute path that climbs an even number of times. Of all other climbs it keeps one or none. -/
theorem normalize_isCanonical_iff (p : Path) :
    (p.IsCanonical p.normalize ↔ p.FoldsFully) ∧
      p.normalize.components =
        p.start ++ (List.replicate (p.climbs % 2) .up ++ p.keptNames.map .name) := by
  obtain ⟨hcomponents, -⟩ := p.components_normalize_eq
  refine ⟨?_, hcomponents⟩
  have hspelled : p.normalize = ofComponents p.normalize.components := by
    rw [hcomponents, ← reverse_folded, normalize_eq]
  have hiff : p.IsCanonical p.normalize ↔ p.normalize.components = p.canonicalComponents :=
    ⟨IsCanonical.components_eq, fun h => isCanonical_of_components_eq h hspelled⟩
  rw [hiff, hcomponents, canonicalComponents, FoldsFully, ← List.append_assoc,
    List.append_left_inj]
  cases hp : p.isAbsolute with
  | true =>
    rw [start_of_isAbsolute hp, if_pos rfl, if_pos rfl, List.append_right_eq_self,
      List.replicate_eq_nil_iff, Nat.even_iff]
  | false =>
    rw [start_of_relative hp, if_neg Bool.false_ne_true, if_neg Bool.false_ne_true,
      List.nil_append, List.replicate_left_inj]
    omega

/-- The second `..` takes back the first one, and above the root one `..` is left. -/
theorem not_isCanonical_normalize_upUp :
    (ofString "../..").normalize = ofString "" ∧
      ¬(ofString "../..").IsCanonical (ofString "../..").normalize ∧
        (ofString "/..").normalize = ofString "/.." ∧
          ¬(ofString "/..").IsCanonical (ofString "/..").normalize :=
  ⟨by decide, fun h => absurd h.components_eq (by decide), by decide,
    fun h => absurd h.components_eq (by decide)⟩

/-! ## Resolving in steps -/

theorem folded_normalize (p : Path) : p.normalize.folded = p.folded := by
  obtain ⟨hcomponents, hstart⟩ := p.components_normalize_eq
  have hlead : (p.start ++ List.replicate (p.climbs % 2) Component.up).foldl foldComponent [] =
      List.replicate (p.climbs % 2) .up ++ p.start := by
    rcases p.start_eq_nil_or_root with h | h <;>
      rcases Nat.mod_two_eq_zero_or_one p.climbs with hmod | hmod <;> rw [h, hmod] <;> rfl
  rw [← foldl_foldComponent, hcomponents, ← List.append_assoc, List.foldl_append, hlead,
    foldl_foldComponent_names, keptNames, List.map_reverse, List.reverse_reverse, folded_eq]
  rfl

theorem normalize_congr (h : p.folded = q.folded) : p.normalize = q.normalize := by
  rw [normalize_eq, normalize_eq, h]

theorem isAbsolute_join_eq (hq : q.isAbsolute = false) :
    (p.join q).isAbsolute = p.isAbsolute := by
  have hhead : ∀ t : RawText, p.raw ≠ [] → isAbsolute ⟨p.raw ++ t⟩ = p.isAbsolute := fun t hne => by
    rw [isAbsolute, isAbsolute, List.head?_append_of_ne_nil _ hne]
  by_cases hne : p.raw = []
  · have hp : p.isAbsolute = false := by rw [isAbsolute, hne]; rfl
    rw [join, hq, if_neg Bool.false_ne_true, if_pos (.inl hne), hne, hp]
    exact hq
  · rw [join, hq, if_neg Bool.false_ne_true]
    split
    · exact hhead _ hne
    · exact hhead _ hne

theorem below_join (hq : q.isAbsolute = false) :
    below (p.join q).raw = below p.raw ++ below q.raw := by
  rw [join, hq, if_neg Bool.false_ne_true]
  split
  · next hend =>
    rcases hend with hnil | hslash
    · show below (p.raw ++ q.raw) = _
      rw [hnil]
      rfl
    · obtain ⟨lead, hlead⟩ := List.getLast?_eq_some_iff.mp hslash
      show below (p.raw ++ q.raw) = _
      rw [hlead, List.append_assoc, List.singleton_append, below_append_slash, below_append_slash,
        below_nil, List.append_nil]
  · exact below_append_slash p.raw q.raw

/-- What is kept of a joined path is got by going on from what is kept of the first one. -/
theorem folded_join (hq : q.isAbsolute = false) :
    (p.join q).folded = (below q.raw).foldl foldComponent p.folded := by
  rw [folded, below_join hq, List.foldl_append, start, isAbsolute_join_eq hq]
  rfl

/-- A path can be written with its components alone. -/
theorem components_ofComponents_components (p : Path) :
    (ofComponents p.components).components = p.components := by
  rcases p.components_eq_start_append with h | ⟨-, -, h⟩
  · rw [h]
    exact (components_ofComponents_append p.start_eq_nil_or_root fun c => proper_of_mem_below).1
  · rw [h]
    have hproper : ∀ c ∈ below p.raw, c.Proper := fun c => proper_of_mem_below
    cases hbelow : below p.raw with
    | nil => rfl
    | cons c cs =>
      rw [hbelow] at hproper
      have hraw : ofComponents (.here :: c :: cs) =
          ⟨[dot] ++ slash :: joinWith [slash] ((c :: cs).map Component.raw)⟩ := rfl
      rw [hraw, components_append_slash (p := ⟨[dot]⟩) (List.cons_ne_nil _ _),
        below_joinWith_raw hproper]
      rfl

/-- What a path resolves to depends on its components only. -/
theorem absolutize_congr (base : Path) (h : p.components = q.components) :
    base.absolutize p = base.absolutize q := by
  have habsolute : p.isAbsolute = q.isAbsolute :=
    Bool.eq_iff_iff.mpr ⟨Same.isAbsolute h, Same.isAbsolute h.symm⟩
  rw [absolutize, absolutize, habsolute]
  split
  · refine normalize_congr ?_
    rw [← foldl_foldComponent, h, foldl_foldComponent]
  · next hq =>
    have hrelative : q.isAbsolute = false := Bool.eq_false_iff.mpr hq
    have hfold : ∀ r : Path, r.isAbsolute = false →
        (base.join r).folded = r.components.foldl foldComponent base.folded := fun r hr => by
      rw [folded_join hr, foldl_components (fun _ => rfl), start_of_relative hr]
      rfl
    refine normalize_congr ?_
    rw [hfold p (habsolute.trans hrelative), hfold q hrelative, h]

/-- A path can be resolved in two steps, through a base that has been normalized already, and
normalizing again changes nothing. -/
theorem absolutize_join (a b c : Path) :
    a.absolutize (b.join c) = (a.absolutize b).absolutize c ∧
      a.normalize.normalize = a.normalize := by
  refine ⟨?_, normalize_congr a.folded_normalize⟩
  cases hc : c.isAbsolute with
  | true =>
    have hjoin : b.join c = c := by rw [join, hc, if_pos rfl]
    rw [hjoin, absolutize, absolutize, hc, if_pos rfl, if_pos rfl]
  | false =>
    have hrest : (a.absolutize b).absolutize c = ((a.absolutize b).join c).normalize := by
      rw [absolutize, hc, if_neg Bool.false_ne_true]
    rw [hrest]
    cases hb : b.isAbsolute with
    | true =>
      rw [absolutize, isAbsolute_join_eq hc, hb, if_pos rfl, absolutize, hb, if_pos rfl]
      refine normalize_congr ?_
      rw [folded_join hc, folded_join hc, folded_normalize]
    | false =>
      rw [absolutize, isAbsolute_join_eq hc, hb, if_neg Bool.false_ne_true, absolutize, hb,
        if_neg Bool.false_ne_true]
      refine normalize_congr ?_
      have hbc : (b.join c).isAbsolute = false := (isAbsolute_join_eq hc).trans hb
      rw [folded_join hbc, below_join hc, List.foldl_append, folded_join hc, folded_normalize,
        folded_join hb]

end Path

end Typesweep
