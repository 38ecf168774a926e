import Mathlib.Data.List.Pairwise
import Typesweep.Path.Basic
import Typesweep.Proofs.Order

/-!
# The order of paths

Texts, components and paths are each compared lexicographically, so their comparisons are linear
preorders (`Std.TransCmp`). Paths that compare equal are the same (`Path.compare_eq_iff`).
-/

namespace Typesweep

namespace Component

/-! ## Texts and components -/

/-- Texts are compared like lists of numbers. -/
theorem compareRaw_eq_compareLex (s t : RawText) :
    compareRaw s t = List.compareLex (compareOn UInt8.toNat) s t := by
  induction s generalizing t with
  | nil => cases t <;> rfl
  | cons a s ih =>
    cases t with
    | nil => rfl
    | cons b t =>
      rw [compareRaw, List.compareLex_cons_cons, ← ih, compareOn, Nat.compare_eq_ite_lt]
      split
      · rfl
      · split <;> rfl

instance : Std.TransCmp compareRaw := by
  rw [show compareRaw = List.compareLex (compareOn UInt8.toNat) from
    funext fun s => funext fun t => compareRaw_eq_compareLex s t]
  infer_instance

theorem compareRaw_eq_iff {s t : RawText} : compareRaw s t = .eq ↔ s = t := by
  constructor
  · intro h
    induction s generalizing t with
    | nil => cases t with
      | nil => rfl
      | cons b t => cases h
    | cons a s ih =>
      cases t with
      | nil => cases h
      | cons b t =>
        rw [compareRaw] at h
        split at h
        · cases h
        · split at h
          · cases h
          · rw [ih h, UInt8.toNat_inj.mp (by omega : a.toNat = b.toNat)]
  · rintro rfl
    exact Std.ReflCmp.compare_self

/-- The bytes of a name; the other components have none. -/
def nameText : Component → RawText
  | .name t => t
  | _ => []

/-- Components are compared by kind first, then by name. -/
theorem compare_eq_then (a b : Component) :
    a.compare b = (Ord.compare a.rank b.rank).then (compareRaw a.nameText b.nameText) := by
  cases a <;> cases b <;> simp [compare, rank, nameText, Nat.compare_eq_ite_lt, compareRaw]

instance : Std.TransCmp compare := by
  have hname : Std.TransCmp fun a b : Component => compareRaw a.nameText b.nameText :=
    Order.transCmp_on nameText
  rw [show compare = compareLex (compareOn rank) fun a b => compareRaw a.nameText b.nameText from
    funext fun a => funext fun b => compare_eq_then a b]
  infer_instance

instance : Std.LawfulEqCmp compare where
  eq_of_compare {a b} h := by
    rw [compare_eq_then, Ordering.then_eq_eq, compareRaw_eq_iff, Nat.compare_eq_eq] at h
    obtain ⟨hrank, hname⟩ := h
    cases a <;> cases b <;> simp_all [rank, nameText]

end Component

namespace Path

/-! ## Paths -/

theorem compareComponents_eq_compareLex (cs ds : List Component) :
    compareComponents cs ds = List.compareLex Component.compare cs ds := by
  induction cs generalizing ds with
  | nil => cases ds <;> rfl
  | cons c cs ih =>
    cases ds with
    | nil => rfl
    | cons d ds => rw [compareComponents, List.compareLex_cons_cons, ih]

theorem compare_eq_compareLex (p q : Path) :
    p.compare q = List.compareLex Component.compare p.components q.components :=
  compareComponents_eq_compareLex _ _

instance : Std.TransCmp compare := by
  rw [show compare = fun p q => List.compareLex Component.compare p.components q.components from
    funext fun p => funext fun q => compare_eq_compareLex p q]
  exact Order.transCmp_on components

/-- Paths compare equal exactly when they are the same. -/
theorem compare_eq_iff {p q : Path} : p.compare q = .eq ↔ p.Same q := by
  rw [compare_eq_compareLex]
  exact Std.LawfulEqCmp.compare_eq_iff_eq

/-! ## Sameness -/

theorem Same.congr_right {q r : Path} (h : q.Same r) (p : Path) : p.Same q ↔ p.Same r :=
  ⟨fun hpq => hpq.trans h, fun hpr => hpr.trans h.symm⟩

theorem not_same_of_compare_lt {p q : Path} (h : p.compare q = .lt) : ¬ p.Same q := by
  rw [← compare_eq_iff, h]
  exact nofun

/-- If no two elements of a list have the same path, an element is told by its path. -/
theorem eq_of_pairwise_not_same {α : Type} {path : α → Path} {as : List α}
    (h : as.Pairwise fun a b => ¬ (path a).Same (path b)) {a b : α} (ha : a ∈ as) (hb : b ∈ as)
    (hsame : (path a).Same (path b)) : a = b := by
  have hsymm : Std.Symm fun a b : α => ¬ (path a).Same (path b) :=
    ⟨fun _ _ hno hyes => hno hyes.symm⟩
  by_contra hne
  exact h.forall ha hb hne hsame

end Path

end Typesweep
