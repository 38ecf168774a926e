import Typesweep.Proofs.Path.Relative
import Typesweep.Proofs.Text.Utf8

/-!
# The texts of paths

The path of a text is shown as that text. Any other path is shown component by component, as it
would be if every name that is not UTF-8 were the one it is shown as. So what is shown of a path is
that of another one, which its text is read back as; `/r/\ufffd` is read back for every path that
leads from `/r` to a name of one byte that is no character.

* `shown`: the path that a path is shown as.
* `text_ofText`, `text_shown`: such a path is shown as itself.
* `components_shown`, `IsNormal.shown`: its components are those of the path, each as it is shown.
* `IsAbove.exists_text`: the text of a path goes on below it.
-/

namespace Typesweep

open Text
open RawText (slash dot)

/-! ## Components -/

namespace Component

variable {c : Component} {cs ds rest : List Component} {segment : RawText}

/-- The component that the given one is shown as. -/
def shown : Component → Component
  | .name raw => .name (toUtf8 (ofBytes raw))
  | c => c

theorem raw_shown (c : Component) : c.shown.raw = toUtf8 c.text := by
  cases c <;> rfl

@[simp]
theorem text_shown (c : Component) : c.shown.text = c.text := by
  rw [text, raw_shown, ofBytes_toUtf8]

@[simp]
theorem rank_shown (c : Component) : c.shown.rank = c.rank := by
  cases c <;> rfl

theorem shown_eq_iff : c.shown = c ↔ IsUtf8 c.raw := by
  cases c with
  | name raw => exact ⟨fun h => Component.name.inj h, congrArg Component.name⟩
  | root => exact iff_of_true rfl (by decide)
  | here => exact iff_of_true rfl (by decide)
  | up => exact iff_of_true rfl (by decide)

/-- All components are UTF-8, so they are shown as themselves. -/
def AreUtf8 (cs : List Component) : Prop :=
  ∀ c ∈ cs, IsUtf8 c.raw

instance : DecidablePred AreUtf8 := fun cs =>
  inferInstanceAs (Decidable (∀ c ∈ cs, IsUtf8 c.raw))

theorem map_shown_eq_iff : cs.map shown = cs ↔ AreUtf8 cs := by
  conv_lhs => rhs; rw [← List.map_id cs]
  rw [List.map_inj_left]
  exact forall₂_congr fun c _ => shown_eq_iff

/-- Components that are shown to go on from others go on from them where both are UTF-8. -/
theorem exists_append_of_shown (h : ds.map shown = cs.map shown ++ rest) (hcs : AreUtf8 cs)
    (hds : AreUtf8 (ds.take cs.length)) : ∃ more, ds = cs ++ more ∧ rest = more.map shown := by
  obtain ⟨lead, more, rfl, hlead, hmore⟩ := List.map_eq_append_iff.mp h
  have hlength : lead.length = cs.length := by simpa using congrArg List.length hlead
  rw [List.take_left' hlength, ← map_shown_eq_iff, hlead, map_shown_eq_iff.mpr hcs] at hds
  exact ⟨more, by rw [hds], hmore.symm⟩

/-- Only the segments that mean something to a path are shown like them. -/
theorem ofSegment?_shown (segment : RawText) :
    ofSegment? (toUtf8 (ofBytes segment)) = (ofSegment? segment).map shown := by
  have hnil : toUtf8 (ofBytes segment) = [] ↔ segment = [] := toUtf8_ofBytes_eq_iff [] (by decide)
  have hdot : toUtf8 (ofBytes segment) = [dot] ↔ segment = [dot] :=
    toUtf8_ofBytes_eq_iff ['.'] (by decide)
  have hup : toUtf8 (ofBytes segment) = [dot, dot] ↔ segment = [dot, dot] :=
    toUtf8_ofBytes_eq_iff ['.', '.'] (by decide)
  simp only [ofSegment?, hnil, hdot, hup]
  split_ifs <;> rfl

theorem Proper.shown (h : c.Proper) : c.shown.Proper := by
  rw [Proper, raw_shown, text, ofSegment?_shown, h.1, slash_mem_toUtf8_iff, slash_mem_ofBytes_iff]
  exact ⟨rfl, h.2⟩

end Component

namespace Path

open Component

variable {p q : Path} {t : Text} {cs : List Component}

/-! ## Texts -/

@[simp]
theorem text_ofText (t : Text) : (ofText t).text = t :=
  ofBytes_toUtf8 t

theorem isAbsolute_iff_text : p.isAbsolute = true ↔ p.text.head? = some '/' := by
  rw [isAbsolute, decide_eq_true_iff, text, head?_ofBytes_eq_slash_iff]

theorem text_eq_nil_iff : p.text = [] ↔ p.raw = [] :=
  ofBytes_eq_nil_iff

theorem getLast?_text_iff : p.text.getLast? = some '/' ↔ p.raw.getLast? = some slash :=
  getLast?_ofBytes_eq_slash_iff

theorem segments_ofText (t : Text) : (ofText t).segments = (splitOn '/' t).map toUtf8 :=
  splitOn_toUtf8 t

theorem text_joinWith (cs : List Component) :
    ofBytes (joinWith [slash] (cs.map Component.raw)) = joinWith ['/'] (cs.map Component.text) := by
  rw [ofBytes_joinWith, List.map_map]
  rfl

theorem IsAbove.exists_text (h : p.IsAbove q) (hne : p.raw ≠ [])
    (hlast : p.raw.getLast? ≠ some slash) : ∃ below, q.text = p.text ++ '/' :: below := by
  obtain ⟨below, hbelow⟩ := h.exists_raw hne hlast
  refine ⟨ofBytes below, ?_⟩
  rw [text, hbelow, ofBytes_append_slash]
  rfl

/-- Only the path of the root is shown with a slash at the end. -/
theorem getLast?_text_normalize (h : p.normalize.text.getLast? = some '/') :
    p.normalize.text = ['/'] := by
  rw [text, getLast?_raw_normalize (getLast?_text_iff.mp h)]
  rfl

/-! ## The path that is shown -/

/-- The path that the text shown for a path is read back as. -/
def shown (p : Path) : Path :=
  ofText p.text

@[simp]
theorem text_shown (p : Path) : p.shown.text = p.text :=
  text_ofText p.text

theorem shown_eq_iff : p.shown = p ↔ IsUtf8 p.raw :=
  ⟨congrArg Path.raw, congrArg Path.mk⟩

/-- Two paths are shown alike if they are shown as the same path. -/
theorem shown_eq_shown_iff : p.shown = q.shown ↔ p.text = q.text :=
  ⟨fun h => toUtf8_injective (congrArg Path.raw h), congrArg ofText⟩

theorem isAbsolute_shown (p : Path) : p.shown.isAbsolute = p.isAbsolute := by
  rw [Bool.eq_iff_iff, isAbsolute_iff_text, isAbsolute_iff_text, text_shown]

theorem below_shown (s : RawText) : below (toUtf8 (ofBytes s)) = (below s).map Component.shown := by
  rw [below, splitOn_toUtf8, splitOn_ofBytes, List.map_map, List.filterMap_map, below,
    List.map_filterMap]
  exact List.filterMap_congr fun segment _ => ofSegment?_shown segment

theorem segments_shown (p : Path) :
    p.shown.segments = p.segments.map fun segment => toUtf8 (ofBytes segment) := by
  rw [shown, segments_ofText, text, splitOn_ofBytes, List.map_map]
  rfl

theorem leading?_shown (p : Path) (first : RawText) :
    p.shown.leading? (toUtf8 (ofBytes first)) = (p.leading? first).map Component.shown := by
  have hdot : toUtf8 (ofBytes first) = [dot] ↔ first = [dot] :=
    toUtf8_ofBytes_eq_iff ['.'] (by decide)
  simp only [leading?, isAbsolute_shown, hdot, ofSegment?_shown]
  split_ifs <;> rfl

/-- The components of the path that is shown are those of the path, each as it is shown. -/
theorem components_shown (p : Path) : p.shown.components = p.components.map Component.shown := by
  obtain ⟨first, rest, hsegments, hp⟩ := p.exists_segments
  rw [components, segments_shown, hsegments, hp, List.map_append, List.map_cons]
  dsimp only
  rw [leading?_shown, List.filterMap_map, List.map_filterMap, Option.toList_map]
  exact congrArg _ (List.filterMap_congr fun segment _ => ofSegment?_shown segment)

theorem shown_ofComponents (cs : List Component) :
    (ofComponents (.root :: cs)).shown = ofComponents (.root :: cs.map Component.shown) := by
  have htext : (ofComponents (.root :: cs)).text =
      '/' :: joinWith ['/'] (cs.map Component.text) := by
    rw [← text_joinWith]
    exact ofBytes_cons_slash _
  have hraw : (cs.map Component.shown).map Component.raw = (cs.map Component.text).map toUtf8 := by
    rw [List.map_map, List.map_map]
    exact List.map_congr_left fun c _ => raw_shown c
  rw [shown, htext, ofText, toUtf8_cons_slash, toUtf8_joinWith, ← hraw]
  rfl

/-- Whether a path is normal depends on the kinds of its components only. -/
theorem IsNormal.normalize_eq_of_rank (hp : p.IsNormal)
    (h : q.components.map rank = p.components.map rank) :
    q.normalize = ofComponents q.components := by
  obtain ⟨lead, names, hnormal, hlead, hnames⟩ := exists_normalize_eq hp.1
  rw [← hp.2, hnormal, (components_ofComponents_lead hlead hnames).2, List.map_append,
    List.map_eq_append_iff] at h
  obtain ⟨start, rest, hcomponents, hstart, hrest⟩ := h
  have hrank : ∀ c : Component, (c.rank = 0 → c = .root) ∧ (c.rank = 2 → c = .up) ∧
      (c.rank = 3 → ∃ name, c = .name name) := by
    rintro (_ | _ | _ | name) <;> simp [rank]
  have hfold : start.foldl foldComponent [] = start.reverse := by
    rcases hlead with rfl | rfl
    · obtain ⟨c, rfl, hc⟩ := List.map_eq_singleton_iff.mp hstart
      rw [(hrank c).1 hc]
      rfl
    · obtain ⟨c, others, rfl, hc, hothers⟩ := List.map_eq_cons_iff.mp hstart
      obtain ⟨c', rfl, hc'⟩ := List.map_eq_singleton_iff.mp hothers
      rw [(hrank c).1 hc, (hrank c').2.1 hc']
      rfl
  obtain ⟨shown, rfl⟩ : ∃ shown : List RawText, rest = shown.map Component.name := by
    have hname : ∀ c ∈ rest, c = .up ∨ ∃ name, c = Component.name name := by
      intro c hc
      have hmem : c.rank ∈ (names.map Component.name).map rank := hrest ▸ List.mem_map_of_mem hc
      obtain ⟨other, hother, heq⟩ := List.mem_map.mp hmem
      obtain ⟨name, -, rfl⟩ := List.mem_map.mp hother
      exact .inr ((hrank c).2.2 heq.symm)
    refine exists_names_of_up_notMem hname fun hup => ?_
    have hmem : Component.up.rank ∈ (names.map Component.name).map rank :=
      hrest ▸ List.mem_map_of_mem hup
    simp [rank] at hmem
  rw [normalize, hcomponents, List.foldl_append, hfold, foldl_foldComponent_names,
    ← List.reverse_append, List.reverse_reverse]

theorem IsNormal.shown (hp : p.IsNormal) : p.shown.IsNormal := by
  have habsolute : p.shown.isAbsolute = true := (isAbsolute_shown p).trans hp.1
  have hrank : p.shown.components.map rank = p.components.map rank := by
    rw [components_shown, List.map_map]
    exact List.map_congr_left fun c _ => rank_shown c
  obtain ⟨cs, hcs, hp'⟩ := hp.isTidy
  refine ⟨habsolute, (hp.normalize_eq_of_rank hrank).trans ?_⟩
  rw [components_shown, hp', components_ofComponents hcs, shown_ofComponents]
  rfl

end Path

end Typesweep
