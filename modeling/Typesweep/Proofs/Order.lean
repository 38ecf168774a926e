import Mathlib.Data.List.Sort
import Typesweep.Order

/-!
# Sorted lists

What sorting by a comparison gives, when the comparison is one of a linear preorder
(`Std.TransCmp`).

* `sort_perm`, `sort_pairwise`, `filter_sort`: the sorted list is a permutation, it ascends, and
  elements that compare equal keep their order.
* `sort_eq_of_perm`, `sort_eq_self`, `sort_sublist`, `exists_sort_insert`: sorting the same elements
  in another order, elements in order, fewer elements, and one element more.
* `sort_selects`: the first of the least elements comes first.
* `sortDistinct_pairwise`, `exists_mem_sortDistinct`: the distinct sorted list ascends strictly, and
  has each element or one that compares equal.
* `mem_sortDistinct_iff`, `sortDistinct_congr`: when it has exactly the elements, it is the same for
  every order and repetition of them.
-/

namespace Typesweep.Order

variable {α : Type} {cmp : α → α → Ordering} {a b : α} {as : List α}

/-- Comparing by what `f` gives is a linear preorder if comparing that is one. -/
theorem transCmp_on {α β : Type} {c : β → β → Ordering} [Std.TransCmp c] (f : α → β) :
    Std.TransCmp fun a b => c (f a) (f b) where
  eq_swap := Std.OrientedCmp.eq_swap
  isLE_trans := Std.TransCmp.isLE_trans

/-- The relation that `sort` sorts by. -/
def NotAfter (cmp : α → α → Ordering) (a b : α) : Prop :=
  cmp a b ≠ .gt

instance : DecidableRel (NotAfter cmp) :=
  fun a b => inferInstanceAs (Decidable (cmp a b ≠ .gt))

theorem notAfter_iff : NotAfter cmp a b ↔ (cmp a b).isLE = true := by
  unfold NotAfter
  cases cmp a b <;> simp

/-! ## Sorting -/

theorem insert_eq_orderedInsert (as : List α) :
    insert cmp a as = as.orderedInsert (NotAfter cmp) a := by
  induction as with
  | nil => rfl
  | cons b rest ih =>
    rw [insert, List.orderedInsert_cons, ih]
    by_cases h : cmp a b = .gt <;> simp [h, NotAfter]

theorem sort_eq_insertionSort (as : List α) : sort cmp as = as.insertionSort (NotAfter cmp) := by
  induction as with
  | nil => rfl
  | cons a rest ih =>
    rw [List.insertionSort_cons, ← ih, ← insert_eq_orderedInsert]
    rfl

theorem sort_perm (as : List α) : (sort cmp as).Perm as := by
  rw [sort_eq_insertionSort]
  exact List.perm_insertionSort _ as

/-- A list that ascends already stays as it is. -/
theorem sort_eq_self (h : as.Pairwise (NotAfter cmp)) : sort cmp as = as := by
  rw [sort_eq_insertionSort]
  exact h.insertionSort_eq

theorem insert_perm (a : α) (as : List α) : (insert cmp a as).Perm (a :: as) := by
  rw [insert_eq_orderedInsert]
  exact List.perm_orderedInsert _ a as

theorem sort_map {β : Type} (f : β → α) (bs : List β) :
    sort cmp (bs.map f) = (sort (fun b c => cmp (f b) (f c)) bs).map f := by
  rw [sort_eq_insertionSort, sort_eq_insertionSort]
  exact (List.map_insertionSort _ _ f bs fun _ _ _ _ => Iff.rfl).symm

/-- An element comes first when all before it are greater and none after it is less. -/
theorem sort_selects {before after : List α} (hbefore : ∀ x ∈ before, cmp x a = .gt)
    (hafter : ∀ x ∈ after, cmp a x ≠ .gt) :
    sort cmp (before ++ a :: after) = a :: sort cmp (before ++ after) := by
  induction before with
  | nil =>
    show insert cmp a (sort cmp after) = a :: sort cmp after
    cases hsorted : sort cmp after with
    | nil => rfl
    | cons b rest =>
      have hb : b ∈ after := (sort_perm after).mem_iff.mp (hsorted ▸ List.mem_cons_self)
      rw [insert, if_neg (hafter b hb)]
  | cons x before ih =>
    have hx : cmp x a = .gt := hbefore x List.mem_cons_self
    have hrest := ih fun y hy => hbefore y (List.mem_cons_of_mem x hy)
    show insert cmp x (sort cmp (before ++ a :: after)) =
      a :: insert cmp x (sort cmp (before ++ after))
    rw [hrest, insert, if_pos hx]

/-- A list that is not empty has a first one among its least elements. -/
theorem exists_first_least (f : α → Nat) (h : as ≠ []) :
    ∃ before a after, as = before ++ a :: after ∧ (∀ x ∈ before, f a < f x) ∧
      ∀ x ∈ after, f a ≤ f x := by
  induction as with
  | nil => exact absurd rfl h
  | cons b rest ih =>
    by_cases hall : ∀ x ∈ rest, f b ≤ f x
    · exact ⟨[], b, rest, rfl, fun x hx => absurd hx List.not_mem_nil, hall⟩
    · push Not at hall
      obtain ⟨y, hy, hlt⟩ := hall
      obtain ⟨before, a, after, rfl, hbefore, hafter⟩ := ih (List.ne_nil_of_mem hy)
      -- `y` is below `b`, and nothing in `rest` is below `a`.
      have hay : f a ≤ f y := by
        rcases List.mem_append.mp hy with hy | hy
        · exact (hbefore y hy).le
        · rcases List.mem_cons.mp hy with rfl | hy
          · exact le_rfl
          · exact hafter y hy
      refine ⟨b :: before, a, after, rfl, fun x hx => ?_, hafter⟩
      rcases List.mem_cons.mp hx with rfl | hx
      · exact hay.trans_lt hlt
      · exact hbefore x hx

section Trans

variable [Std.TransCmp cmp]

instance : IsTrans α (NotAfter cmp) :=
  ⟨fun _ _ _ hab hbc => notAfter_iff.mpr
    (Std.TransCmp.isLE_trans (notAfter_iff.mp hab) (notAfter_iff.mp hbc))⟩

instance : Std.Total (NotAfter cmp) :=
  ⟨fun a b => by
    have hswap : cmp b a = (cmp a b).swap := Std.OrientedCmp.eq_swap
    unfold NotAfter
    rw [hswap]
    cases cmp a b <;> simp⟩

theorem insert_pairwise (h : as.Pairwise (NotAfter cmp)) :
    (insert cmp a as).Pairwise (NotAfter cmp) := by
  rw [insert_eq_orderedInsert]
  exact h.orderedInsert a as

theorem sort_pairwise (as : List α) : (sort cmp as).Pairwise (NotAfter cmp) := by
  rw [sort_eq_insertionSort]
  exact List.pairwise_insertionSort _ as

/-- Sorting is stable: the elements that compare equal to `k` keep their order. They are a list that
ascends already, so they are still a sublist of the sorted list, and there are no others in it. -/
theorem filter_sort (k : α) (as : List α) :
    (sort cmp as).filter (fun a => decide (cmp k a = .eq)) =
      as.filter (fun a => decide (cmp k a = .eq)) := by
  have hsub : (as.filter fun a => decide (cmp k a = .eq)).Sublist (sort cmp as) := by
    rw [sort_eq_insertionSort]
    refine List.sublist_insertionSort ?_ List.filter_sublist
    rw [List.pairwise_filter]
    refine List.pairwise_of_forall fun a b ha hb => ?_
    have hab : cmp a b = .eq :=
      Std.TransCmp.eq_trans (Std.OrientedCmp.eq_symm (of_decide_eq_true ha)) (of_decide_eq_true hb)
    simp [NotAfter, hab]
  have hfilter := hsub.filter fun a => decide (cmp k a = .eq)
  rw [List.filter_filter] at hfilter
  simp only [Bool.and_self] at hfilter
  exact (hfilter.eq_of_length ((sort_perm as).filter _).length_eq.symm).symm

theorem eq_of_notAfter (hab : NotAfter cmp a b) (hba : NotAfter cmp b a) : cmp a b = .eq :=
  Std.OrientedCmp.isLE_antisymm (notAfter_iff.mp hab) (notAfter_iff.mp hba)

/-- If only equal elements compare equal, the order in which they are given does not matter. -/
theorem sort_eq_of_perm {bs : List α} (hperm : as.Perm bs)
    (h : ∀ a ∈ as, ∀ b ∈ as, cmp a b = .eq → a = b) : sort cmp as = sort cmp bs := by
  refine (((sort_perm as).trans hperm).trans (sort_perm bs).symm).eq_of_pairwise ?_
    (sort_pairwise as) (sort_pairwise bs)
  intro a b ha hb hab hba
  have hb' : b ∈ as := hperm.mem_iff.mpr ((sort_perm bs).mem_iff.mp hb)
  exact h a ((sort_perm as).mem_iff.mp ha) b hb' (eq_of_notAfter hab hba)

/-- Elements that are left out do not change the order of the others. -/
theorem sort_sublist {bs : List α} (h : as.Sublist bs) : (sort cmp as).Sublist (sort cmp bs) := by
  rw [sort_eq_insertionSort, sort_eq_insertionSort]
  induction h with
  | slnil => exact List.Sublist.refl []
  | cons b _ ih => exact ih.trans (List.sublist_orderedInsert b _)
  | cons_cons a _ ih => exact ih.orderedInsert_sublist a (List.pairwise_insertionSort _ _)

/-- One element more goes between those that are sorted without it. -/
theorem exists_sort_insert {front back : List α} (hnew : a ∉ front ++ back) :
    ∃ before after, sort cmp (front ++ back) = before ++ after ∧
      sort cmp (front ++ a :: back) = before ++ a :: after := by
  have hmem : a ∈ sort cmp (front ++ a :: back) := (sort_perm _).mem_iff.mpr (by simp)
  obtain ⟨before, after, hsplit⟩ := List.append_of_mem hmem
  refine ⟨before, after, ?_, hsplit⟩
  have hperm : (front ++ back).Perm (before ++ after) := by
    have hcons : (a :: (before ++ after)).Perm (a :: (front ++ back)) :=
      List.perm_middle.symm.trans ((hsplit ▸ sort_perm _).trans List.perm_middle)
    exact (List.Perm.cons_inv hcons).symm
  have hsub : (sort cmp (front ++ back)).Sublist (before ++ a :: after) :=
    hsplit ▸ sort_sublist ((List.sublist_cons_self a back).append_left front)
  -- Without `a` the two lists are equally long.
  obtain ⟨left, right, heq, hleft, hright⟩ := List.sublist_append_iff.mp hsub
  have hright' : right.Sublist after := by
    rcases List.sublist_cons_iff.mp hright with hright | ⟨rest, rfl, -⟩
    · exact hright
    · have ha : a ∈ sort cmp (front ++ back) := by rw [heq]; simp
      exact absurd ((sort_perm _).mem_iff.mp ha) hnew
  rw [heq]
  refine (hleft.append hright').eq_of_length ?_
  rw [← heq, (sort_perm _).length_eq, hperm.length_eq]

end Trans

/-! ## Sorting without repetitions -/

theorem mem_of_mem_insertDistinct (h : b ∈ insertDistinct cmp a as) : b = a ∨ b ∈ as := by
  induction as with
  | nil => exact .inl (by simpa [insertDistinct] using h)
  | cons c rest ih =>
    rw [insertDistinct] at h
    split at h
    · exact List.mem_cons.mp h
    · rcases List.mem_cons.mp h with h | h
      · exact .inl h
      · exact .inr (List.mem_cons_of_mem c h)
    · rcases List.mem_cons.mp h with h | h
      · exact .inr (h ▸ List.mem_cons_self)
      · exact (ih h).imp_right (List.mem_cons_of_mem c)

theorem insertDistinct_pairwise [Std.TransCmp cmp]
    (h : as.Pairwise fun a b => cmp a b = .lt) :
    (insertDistinct cmp a as).Pairwise fun a b => cmp a b = .lt := by
  induction as with
  | nil => exact List.pairwise_singleton _ a
  | cons c rest ih =>
    obtain ⟨hc, hrest⟩ := List.pairwise_cons.mp h
    rw [insertDistinct]
    split
    · next hac =>
      refine List.pairwise_cons.mpr ⟨fun b hb => ?_, h⟩
      rcases List.mem_cons.mp hb with rfl | hb
      · exact hac
      · exact Std.TransCmp.lt_trans hac (hc b hb)
    · next hac =>
      exact List.pairwise_cons.mpr
        ⟨fun b hb => Std.TransCmp.lt_of_eq_of_lt hac (hc b hb), hrest⟩
    · next hac =>
      refine List.pairwise_cons.mpr ⟨fun b hb => ?_, ih hrest⟩
      rcases mem_of_mem_insertDistinct hb with rfl | hb
      · exact Std.OrientedCmp.lt_of_gt hac
      · exact hc b hb

/-- The distinct sorted list ascends strictly. -/
theorem sortDistinct_pairwise [Std.TransCmp cmp] (as : List α) :
    (sortDistinct cmp as).Pairwise fun a b => cmp a b = .lt := by
  induction as with
  | nil => exact List.Pairwise.nil
  | cons a rest ih => exact insertDistinct_pairwise ih

theorem mem_of_mem_sortDistinct (h : a ∈ sortDistinct cmp as) : a ∈ as := by
  induction as with
  | nil => exact h
  | cons b rest ih =>
    rcases mem_of_mem_insertDistinct h with rfl | h
    · exact List.mem_cons_self
    · exact List.mem_cons_of_mem b (ih h)

theorem exists_mem_insertDistinct [Std.OrientedCmp cmp] (h : b = a ∨ b ∈ as) :
    ∃ c ∈ insertDistinct cmp a as, cmp b c = .eq := by
  induction as with
  | nil =>
    obtain rfl := h.resolve_right List.not_mem_nil
    exact ⟨b, List.mem_singleton_self b, Std.ReflCmp.compare_self⟩
  | cons c rest ih =>
    rw [insertDistinct]
    split
    · exact ⟨b, List.mem_cons.mpr h, Std.ReflCmp.compare_self⟩
    · next hac =>
      rcases h with rfl | h
      · exact ⟨b, List.mem_cons_self, Std.ReflCmp.compare_self⟩
      · rcases List.mem_cons.mp h with rfl | h
        · exact ⟨a, List.mem_cons_self, Std.OrientedCmp.eq_symm hac⟩
        · exact ⟨b, List.mem_cons_of_mem a h, Std.ReflCmp.compare_self⟩
    · rcases h with rfl | h
      · obtain ⟨d, hd, heq⟩ := ih (.inl rfl)
        exact ⟨d, List.mem_cons_of_mem c hd, heq⟩
      · rcases List.mem_cons.mp h with rfl | h
        · exact ⟨b, List.mem_cons_self, Std.ReflCmp.compare_self⟩
        · obtain ⟨d, hd, heq⟩ := ih (.inr h)
          exact ⟨d, List.mem_cons_of_mem c hd, heq⟩

/-- Of elements that compare equal one is kept. -/
theorem exists_mem_sortDistinct [Std.TransCmp cmp] (h : a ∈ as) :
    ∃ b ∈ sortDistinct cmp as, cmp a b = .eq := by
  induction as with
  | nil => exact absurd h List.not_mem_nil
  | cons b rest ih =>
    rcases List.mem_cons.mp h with rfl | h
    · exact exists_mem_insertDistinct (.inl rfl)
    · obtain ⟨c, hc, hac⟩ := ih h
      obtain ⟨d, hd, hcd⟩ : ∃ d ∈ insertDistinct cmp b (sortDistinct cmp rest), cmp c d = .eq :=
        exists_mem_insertDistinct (.inr hc)
      exact ⟨d, hd, Std.TransCmp.eq_trans hac hcd⟩

/-- A list that ascends strictly is told by its elements. -/
theorem eq_of_mem_iff [Std.TransCmp cmp] {bs : List α}
    (has : as.Pairwise fun a b => cmp a b = .lt) (hbs : bs.Pairwise fun a b => cmp a b = .lt)
    (h : ∀ a, a ∈ as ↔ a ∈ bs) : as = bs := by
  have hnodup : ∀ {cs : List α}, cs.Pairwise (fun a b => cmp a b = .lt) → cs.Nodup := fun hcs =>
    hcs.imp fun {a b} hlt heq => by
      subst heq
      have hself : cmp a a = .eq := Std.ReflCmp.compare_self
      rw [hself] at hlt
      cases hlt
  refine ((List.perm_ext_iff_of_nodup (hnodup has) (hnodup hbs)).mpr h).eq_of_pairwise
    (fun a b _ _ hab hba => ?_) has hbs
  rw [Std.OrientedCmp.gt_of_lt hab] at hba
  cases hba

/-- If only equal elements compare equal, the distinct sorted list has exactly the elements. -/
theorem mem_sortDistinct_iff [Std.TransCmp cmp] (h : ∀ a ∈ as, ∀ b ∈ as, cmp a b = .eq → a = b) :
    a ∈ sortDistinct cmp as ↔ a ∈ as := by
  refine ⟨mem_of_mem_sortDistinct, fun ha => ?_⟩
  obtain ⟨b, hb, heq⟩ : ∃ b ∈ sortDistinct cmp as, cmp a b = .eq := exists_mem_sortDistinct ha
  rwa [h a ha b (mem_of_mem_sortDistinct hb) heq]

/-- The distinct sorted list depends on which elements there are, not on their order and repetition,
if only equal elements compare equal. -/
theorem sortDistinct_congr [Std.TransCmp cmp] {bs : List α} (hmem : ∀ a, a ∈ as ↔ a ∈ bs)
    (h : ∀ a ∈ as, ∀ b ∈ as, cmp a b = .eq → a = b) :
    sortDistinct cmp as = sortDistinct cmp bs := by
  have h' : ∀ a ∈ bs, ∀ b ∈ bs, cmp a b = .eq → a = b := fun a ha b hb =>
    h a ((hmem a).mpr ha) b ((hmem b).mpr hb)
  refine eq_of_mem_iff (sortDistinct_pairwise as) (sortDistinct_pairwise bs) fun a => ?_
  rw [mem_sortDistinct_iff h, mem_sortDistinct_iff h', hmem]

end Typesweep.Order
