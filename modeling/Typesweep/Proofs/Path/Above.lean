import Mathlib.Data.List.Pairwise
import Typesweep.Proofs.Path.Relative

/-!
# The paths above a path

Above an absolute path are the paths of all beginnings of its components, from the longest to the
root alone, each in the spelling that the path itself begins with. So the first of them with some
property is the nearest one.

* `Encloses`: a path that is another one or lies above it, by their components.
* `exists_mem_ancestors`, `ancestors_pairwise`: the paths above.
-/

namespace Typesweep.Path

open RawText (slash)

open Component Text

variable {p q r : Path} {cs : List Component}

/-- Whether `q` is `p` or lies below it, component by component. -/
def Encloses (p q : Path) : Prop :=
  p.components <+: q.components

instance : DecidableRel Encloses := fun p q =>
  inferInstanceAs (Decidable (p.components <+: q.components))

example : (ofString "/r/src").Encloses (ofString "/r/src/a.ts") ∧
    ¬(ofString "/r/src").Encloses (ofString "/r/src2") := by
  decide

theorem Encloses.refl (p : Path) : p.Encloses p :=
  List.prefix_refl _

theorem Encloses.trans (hpq : p.Encloses q) (hqr : q.Encloses r) : p.Encloses r :=
  List.IsPrefix.trans hpq hqr

theorem Encloses.antisymm (hpq : p.Encloses q) (hqp : q.Encloses p) : p.Same q :=
  hpq.eq_of_length_le hqp.length_le

theorem Same.encloses (h : p.Same q) : p.Encloses q :=
  ⟨[], (List.append_nil _).trans h⟩

theorem Encloses.isAbsolute (h : p.Encloses q) (hp : p.isAbsolute = true) :
    q.isAbsolute = true := by
  rw [isAbsolute_iff_root_mem] at hp ⊢
  exact h.subset hp

/-- Of two paths above another one, one is above the other. -/
theorem Encloses.of_length_le (hp : p.Encloses r) (hq : q.Encloses r)
    (hle : p.components.length ≤ q.components.length) : p.Encloses q :=
  List.prefix_of_prefix_length_le hp hq hle

/-! ## Ancestors -/

/-- The path above an absolute one lacks its last component. -/
theorem exists_components_of_parent? (hp : p.isAbsolute = true) (h : p.parent? = some q) :
    ∃ c, p.components = q.components ++ [c] := by
  obtain ⟨rest, rfl⟩ := exists_raw_of_isAbsolute hp
  unfold parent? at h
  rw [split_slash] at h
  dsimp only at h
  split at h
  · cases h
  · next hne =>
    obtain rfl := Option.some.inj h
    obtain ⟨init, last, hbody⟩ := (List.eq_nil_or_concat _).resolve_left hne
    rw [List.concat_eq_append] at hbody
    have hkept : isNoise last = false := by
      have hlast : (dropNoiseEnd (splitOn slash rest)).getLast hne = last := by
        rw [List.getLast_eq_iff_getLast?_eq_some, hbody, List.getLast?_concat]
      rw [← hlast]
      exact Bool.not_eq_true _ ▸ List.rdropWhile_last_not isNoise (splitOn slash rest) hne
    obtain ⟨c, hc⟩ := isSome_ofSegment? hkept
    have hinit : init <+: splitOn slash rest := by
      refine List.IsPrefix.trans ?_ (prefix_dropNoiseEnd _)
      rw [hbody]
      exact List.prefix_append _ _
    refine ⟨c, ?_⟩
    show _ = components ⟨slash :: joinWith [slash] _⟩ ++ [c]
    rw [hbody, List.dropLast_concat, components_slash, components_slash,
      below_joinWith fun piece hpiece => sep_notMem_of_mem_splitOn
        (((prefix_dropNoiseEnd _).trans hinit).subset hpiece), filterMap_dropNoiseEnd, below,
      ← filterMap_dropNoiseEnd, hbody, List.filterMap_append, List.filterMap_cons, hc]
    rfl

theorem exists_mem_ancestorsUpTo {limit : Nat} (hp : p.isAbsolute = true)
    (hlimit : p.components.length ≤ limit) (hne : cs ≠ []) (h : cs <+: p.components) :
    ∃ q ∈ ancestorsUpTo limit p, q.components = cs := by
  induction limit generalizing p with
  | zero =>
    rw [List.length_eq_zero_iff.mp (Nat.le_zero.mp hlimit)] at h
    exact absurd (List.prefix_nil.mp h) hne
  | succ limit ih =>
    rw [ancestorsUpTo]
    split
    · next hparent =>
      rw [components_of_parent?_eq_none hp hparent, ← List.nil_append [_], List.prefix_concat_iff]
        at h
      refine ⟨p, List.mem_singleton_self p, ?_⟩
      rw [components_of_parent?_eq_none hp hparent]
      exact (h.resolve_right fun h => hne (List.prefix_nil.mp h)).symm
    · next parent hparent =>
      obtain ⟨c, hc⟩ := exists_components_of_parent? hp hparent
      rw [hc, List.prefix_concat_iff] at h
      rcases h with h | h
      · exact ⟨p, List.mem_cons_self, hc.trans h.symm⟩
      · rw [hc, List.length_append, List.length_singleton] at hlimit
        obtain ⟨q, hq, hcs⟩ := ih (prefix_of_parent? hp hparent).1 (Nat.le_of_succ_le_succ hlimit) h
        exact ⟨q, List.mem_cons_of_mem _ hq, hcs⟩

/-- Whatever encloses a path is one of the paths above it, spelled as this path begins. -/
theorem exists_mem_ancestors (hp : p.isAbsolute = true) (h : p.Encloses q) :
    ∃ r ∈ q.ancestors, r.Same p := by
  have hne : p.components ≠ [] := List.ne_nil_of_mem (isAbsolute_iff_root_mem.mp hp)
  exact exists_mem_ancestorsUpTo (h.isAbsolute hp) (Nat.le_succ _) hne h

/-- The paths above a path are shorter and shorter. -/
theorem ancestors_pairwise (hp : p.isAbsolute = true) :
    p.ancestors.Pairwise fun q r => r.components.length < q.components.length := by
  have hlimit : ∀ (limit : Nat) (p : Path), p.isAbsolute = true →
      (ancestorsUpTo limit p).Pairwise fun q r => r.components.length < q.components.length := by
    intro limit
    induction limit with
    | zero => exact fun _ _ => .nil
    | succ limit ih =>
      intro p hp
      rw [ancestorsUpTo]
      split
      · exact List.pairwise_singleton _ _
      · next parent hparent =>
        have habsolute := (prefix_of_parent? hp hparent).1
        obtain ⟨c, hc⟩ := exists_components_of_parent? hp hparent
        refine List.pairwise_cons.mpr ⟨fun r hr => ?_, ih parent habsolute⟩
        rw [hc, List.length_append]
        exact Nat.lt_succ_of_le (prefix_of_mem_ancestorsUpTo habsolute hr).2.length_le
  exact hlimit _ p hp

/-- No path is above another one in two spellings. -/
theorem eq_of_mem_ancestors (hp : p.isAbsolute = true) (hq : q ∈ p.ancestors)
    (hr : r ∈ p.ancestors) (h : q.Same r) : q = r := by
  have hdistinct : p.ancestors.Pairwise fun q r => q.components ≠ r.components :=
    (ancestors_pairwise hp).imp fun hlt heq =>
      Nat.ne_of_lt hlt (congrArg List.length (Eq.symm heq))
  have hsymm : Std.Symm fun q r : Path => q.components ≠ r.components := ⟨fun _ _ => Ne.symm⟩
  by_contra hne
  exact hdistinct.forall hq hr hne h

end Typesweep.Path
