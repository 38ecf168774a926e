import Typesweep.Proofs.Path.Shown

/-!
# Shown paths

A path inside the working directory is shown by what is left of it after a `./`, any other one as it
is. Whether a path lies inside is told by components: `/repo2` is not inside `/repo`, although its
text starts with that of `/repo`.

What is shown is read back from the working directory as the path with every shown name replaced by
the one it is shown as. So it stands for one path only as long as the names are UTF-8: the paths
from `/repo` to a name of the one byte `0xff` and to one of the byte `0xfe` are both shown as
`./\ufffd` (`display_eq_of_undecodable`). The names of the working directory itself are not shown
inside it and may be any bytes.

* `display_of_inside`, `display_of_outside`: the two forms.
* `absolutize_display_of_inside`, `absolutize_display_of_outside`: what they are read back as.
* `absolutize_display`: when this is the path itself.
-/

namespace Typesweep.Path

open Component Text
open RawText (slash dot)

variable {p q cwd : Path} {cs : List Component}

/-- The part of a path that is shown in a working directory. -/
def displayed (p cwd : Path) : Path :=
  (p.relativeTo? cwd).getD p

/-- A path inside the working directory, or this itself, is shown relative to it. -/
theorem display_of_inside (hp : p.IsNormal) (hcwd : cwd.IsNormal)
    (h : p.components = cwd.components ++ cs) :
    (∀ c ∈ cs, c.Proper) ∧ p.displayed cwd = ⟨joinWith [slash] (cs.map Component.raw)⟩ ∧
      p.display cwd = '.' :: '/' :: (p.displayed cwd).text := by
  obtain ⟨all, hall, rfl⟩ := hp.isTidy
  obtain ⟨lead, hlead, rfl⟩ := hcwd.isTidy
  rw [components_ofComponents hall, components_ofComponents hlead, List.cons_append] at h
  obtain rfl := (List.cons.inj h).2
  have hcs : ∀ c ∈ cs, c.Proper := (List.forall_mem_append.mp hall).2
  rw [displayed, display, relativeTo?_ofComponents hlead hcs]
  exact ⟨hcs, rfl, rfl⟩

/-- A path that does not lie inside the working directory is shown as it is. -/
theorem display_of_outside (h : ¬ cwd.components <+: p.components) :
    p.displayed cwd = p ∧ p.display cwd = p.text := by
  have hnone : p.relativeTo? cwd = none := by
    rw [relativeTo?, if_neg (mt List.isPrefixOf_iff_prefix.mp h)]
  rw [displayed, display, hnone]
  exact ⟨rfl, rfl⟩

theorem isUtf8_joinWith_iff (h : ∀ c ∈ cs, c.Proper) :
    IsUtf8 (joinWith [slash] (cs.map Component.raw)) ↔ cs.map Component.shown = cs := by
  have hbelow := below_joinWith_raw h
  constructor
  · intro hutf8
    rw [← hbelow, ← below_shown, hutf8]
  · intro hshown
    have hraw : (cs.map Component.text).map toUtf8 = cs.map Component.raw := by
      conv_rhs => rw [← hshown]
      rw [List.map_map, List.map_map]
      exact List.map_congr_left fun c _ => (raw_shown c).symm
    rw [IsUtf8, text_joinWith, toUtf8_joinWith, hraw]

/-- Inside, the components of the working directory are those that the path starts with, and the
others are read as they are shown. -/
theorem absolutize_display_of_inside (hp : p.IsNormal) (hcwd : cwd.IsNormal)
    (h : p.components = cwd.components ++ cs) :
    cwd.absolutize (.ofText (p.display cwd)) =
      ofComponents (cwd.components ++ cs.map Component.shown) := by
  obtain ⟨hcs, hpart, hshown⟩ := display_of_inside hp hcwd h
  have hraw : (ofText (p.display cwd)).raw = [dot] ++ slash :: toUtf8 (p.displayed cwd).text := by
    rw [hshown, ofText, toUtf8_cons_dot, toUtf8_cons_slash]
    rfl
  have hrelative : (ofText (p.display cwd)).isAbsolute = false := by
    rw [isAbsolute, hraw]
    rfl
  -- The `.` at the start is no component in the middle of the joined path.
  have hjoin : (cwd.join (ofText (p.display cwd))).components =
      cwd.components ++ cs.map Component.shown :=
    calc (cwd.join (ofText (p.display cwd))).components
        = cwd.components ++ below ([dot] ++ slash :: toUtf8 (p.displayed cwd).text) := by
          rw [components_join hcwd.1 hrelative, hraw]
      _ = cwd.components ++ below (toUtf8 (p.displayed cwd).text) := by
          rw [below_append_slash]
          rfl
      _ = cwd.components ++ cs.map Component.shown := by
          rw [text, below_shown, hpart, below_joinWith_raw hcs]
  have hrank : (cwd.join (ofText (p.display cwd))).components.map rank = p.components.map rank := by
    rw [hjoin, h, List.map_append, List.map_append, List.map_map]
    exact congrArg _ (List.map_congr_left fun c _ => rank_shown c)
  rw [absolutize, hrelative, if_neg Bool.false_ne_true,
    hp.normalize_eq_of_rank hrank, hjoin]

/-- Outside, all components are read as they are shown. -/
theorem absolutize_display_of_outside (hp : p.IsNormal) (h : ¬ cwd.components <+: p.components) :
    cwd.absolutize (.ofText (p.display cwd)) = p.shown := by
  have habsolute : p.shown.isAbsolute = true := (isAbsolute_shown p).trans hp.1
  rw [(display_of_outside h).2]
  show cwd.absolutize p.shown = p.shown
  rw [absolutize, habsolute, if_pos rfl, hp.shown.2]

/-- What is shown for a path is read back as this path, from the directory that it is shown to, if
the part of it that is shown is UTF-8, and only then. So two paths of which this is true are not
shown in the same way. -/
theorem absolutize_display (hp : p.IsNormal) (hcwd : cwd.IsNormal) :
    (cwd.absolutize (.ofText (p.display cwd)) = p ↔ IsUtf8 (p.displayed cwd).raw) ∧
      ∀ q : Path, q.IsNormal → IsUtf8 (p.displayed cwd).raw → IsUtf8 (q.displayed cwd).raw →
        q.display cwd = p.display cwd → q = p := by
  have hback : ∀ q : Path, q.IsNormal →
      (cwd.absolutize (.ofText (q.display cwd)) = q ↔ IsUtf8 (q.displayed cwd).raw) := by
    intro q hq
    by_cases hinside : cwd.components <+: q.components
    · obtain ⟨cs, hcs⟩ := hinside
      obtain ⟨hproper, hpart, -⟩ := display_of_inside hq hcwd hcs.symm
      rw [absolutize_display_of_inside hq hcwd hcs.symm, hpart, isUtf8_joinWith_iff hproper]
      have hself : q = ofComponents (cwd.components ++ cs) := by
        rw [hcs, ← hq.normalize_eq_of_rank rfl, hq.2]
      constructor
      · intro h
        obtain ⟨lead, hlead, rfl⟩ := hcwd.isTidy
        have hshown : ∀ c ∈ lead ++ cs.map Component.shown, c.Proper :=
          List.forall_mem_append.mpr
            ⟨hlead, List.forall_mem_map.mpr fun c hc => (hproper c hc).shown⟩
        rw [components_ofComponents hlead] at hcs h
        have hcomponents := congrArg components h
        rw [List.cons_append, components_ofComponents hshown, ← hcs, List.cons_append]
          at hcomponents
        exact List.append_cancel_left (List.cons.inj hcomponents).2
      · intro h
        rw [h, ← hself]
    · rw [absolutize_display_of_outside hq hinside, (display_of_outside hinside).1, shown_eq_iff]
  refine ⟨hback p hp, fun q hq hputf8 hqutf8 hsame => ?_⟩
  rw [← (hback q hq).mpr hqutf8, hsame, (hback p hp).mpr hputf8]

/-- The name of the working directory is not UTF-8, and is not shown. -/
theorem absolutize_display_inside :
    let cwd : Path := ⟨RawText.ofString "/repo" ++ [0xff]⟩
    let p : Path := ⟨cwd.raw ++ RawText.ofString "/pkg/a.ts"⟩
    (p.IsNormal ∧ cwd.IsNormal ∧ IsUtf8 (p.displayed cwd).raw ∧ ¬IsUtf8 p.raw) ∧
      cwd.absolutize (.ofText (p.display cwd)) = p ∧
      ∀ q : Path, q.IsNormal → IsUtf8 (q.displayed cwd).raw → q.display cwd = p.display cwd →
        q = p := by
  intro cwd p
  have hp : p.IsNormal := by decide
  have hcwd : cwd.IsNormal := by decide
  have hutf8 : IsUtf8 (p.displayed cwd).raw := by decide
  obtain ⟨hback, hone⟩ := absolutize_display hp hcwd
  exact ⟨⟨hp, hcwd, hutf8, by decide⟩, hback.mpr hutf8, fun q hq => hone q hq hutf8⟩

/-- Two files in a directory whose names are not UTF-8, shown to a user who stands in this directory
and to one who does not. -/
theorem display_eq_of_undecodable :
    let p : Path := ⟨RawText.ofString "/r/" ++ [0xff]⟩
    let q : Path := ⟨RawText.ofString "/r/" ++ [0xfe]⟩
    p.IsNormal ∧ q.IsNormal ∧ p ≠ q ∧ ∀ cwd ∈ [ofString "/x", ofString "/r"],
      cwd.IsNormal ∧ p.display cwd = q.display cwd ∧
        cwd.absolutize (.ofText (p.display cwd)) ≠ p := by
  decide

-- A path inside, the working directory itself, and a path that only starts with the same text.
example : (ofString "/repo/pkg/a.ts").display (ofString "/repo") = "./pkg/a.ts".toList ∧
    (ofString "/repo").display (ofString "/repo") = "./".toList ∧
    (ofString "/repo2/a.ts").display (ofString "/repo") = "/repo2/a.ts".toList := by
  decide

end Typesweep.Path
