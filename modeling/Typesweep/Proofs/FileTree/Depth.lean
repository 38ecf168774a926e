import Mathlib.Data.Finset.Card
import Typesweep.FileTree.Walk
import Typesweep.Proofs.FileTree.Follow

/-!
# How deep walks go

A walk goes down from a directory to one that is a step further from the top, or along a link to a
directory that it is not inside yet. The room that is left (`room`) counts the directories that
links can still lead to, and the steps down from the current one; every step makes it smaller, so
the bound of a walk never cuts it short.

* `room_lt_of_link`, `room_lt_of_step`: the two kinds of steps.
* `filesInside_eq_of_le`: a walk with enough room to go is the same with more.
* `room_lt_walkDepth`: the bound of a walk is enough.
-/

namespace Typesweep.FileTree

variable {t : FileTree} {enter : Path → Text → Bool} {here place : Place} {inside : List Place}
  {depth : Nat} {path : Path} {name : RawText} {entry : Entry}

/-- The places that can hold a directory. -/
def places (t : FileTree) : Finset Place :=
  ([] :: t.entries.map Prod.fst).toFinset

theorem mem_places (h : t.entry? place = some entry) : place ∈ t.places := by
  rw [places, List.mem_toFinset]
  by_cases hplace : place = []
  · exact hplace ▸ List.mem_cons_self
  · exact List.mem_cons_of_mem _ (List.mem_map.mpr ⟨_, mem_entries_of_some hplace h, rfl⟩)

theorem card_places_le (t : FileTree) : t.places.card ≤ t.entries.length + 1 := by
  refine (List.toFinset_card_le _).trans ?_
  rw [List.length_cons, List.length_map]

theorem length_le_height (h : t.entry? place = some entry) : place.length ≤ t.height := by
  have hmax : ∀ (lengths : List Nat) (start : Nat),
      start ≤ lengths.foldl max start ∧ ∀ length ∈ lengths, length ≤ lengths.foldl max start := by
    intro lengths
    induction lengths with
    | nil => exact fun start => ⟨Nat.le_refl _, fun _ h => absurd h List.not_mem_nil⟩
    | cons length lengths ih =>
      intro start
      obtain ⟨hstart, hall⟩ := ih (max start length)
      refine ⟨(Nat.le_max_left _ _).trans hstart, fun l hl => ?_⟩
      rcases List.mem_cons.mp hl with rfl | hl
      · exact (Nat.le_max_right _ _).trans hstart
      · exact hall l hl
  by_cases hplace : place = []
  · rw [hplace]
    exact Nat.zero_le _
  · exact (hmax _ 0).2 _ (List.mem_map.mpr ⟨_, mem_entries_of_some hplace h, rfl⟩)

/-- An upper bound of the steps down that a walk can still take. -/
def room (t : FileTree) (inside : List Place) (here : Place) : Nat :=
  (t.places \ inside.toFinset).card * (t.height + 1) + (t.height - here.length)

theorem room_lt_of_link (h : t.entry? place = some entry) (hnew : place ∉ inside) (here : Place) :
    t.room (place :: inside) place < t.room inside here := by
  have hmem : place ∈ t.places \ inside.toFinset := by
    rw [Finset.mem_sdiff, List.mem_toFinset]
    exact ⟨mem_places h, hnew⟩
  have hcard : (t.places \ (place :: inside).toFinset).card + 1 =
      (t.places \ inside.toFinset).card := by
    rw [List.toFinset_cons, Finset.sdiff_insert, Finset.card_erase_add_one hmem]
  rw [room, room, ← hcard, Nat.add_mul]
  omega

theorem room_lt_of_step (h : t.entry? (here ++ [name]) = some entry) :
    t.room ((here ++ [name]) :: inside) (here ++ [name]) < t.room inside here := by
  have hcard : (t.places \ ((here ++ [name]) :: inside).toFinset).card ≤
      (t.places \ inside.toFinset).card := by
    refine Finset.card_le_card (Finset.sdiff_subset_sdiff (Finset.Subset.refl _) ?_)
    rw [List.toFinset_cons]
    exact Finset.subset_insert _ _
  have hheight := length_le_height h
  have hmul := Nat.mul_le_mul_right (t.height + 1) hcard
  rw [List.length_append, List.length_singleton] at hheight
  rw [room, room, List.length_append, List.length_singleton]
  omega

/-- A walk with enough room to go is the same with more. -/
theorem filesInside_succ (h : t.room inside here < depth) :
    t.filesInside enter (depth + 1) inside here path =
      t.filesInside enter depth inside here path := by
  induction depth generalizing inside here path with
  | zero => exact absurd h (Nat.not_lt_zero _)
  | succ depth ih =>
    rw [filesInside, filesInside]
    refine List.flatMap_congr fun name _ => ?_
    dsimp only
    split
    · rfl
    · next place _ =>
      split
      · rfl
      · next hentry =>
        split
        · rfl
        · next hpassed =>
          -- The step goes along a link to a new directory, or down to a name.
          have hroom : t.room (place :: inside) place < t.room inside here := by
            by_cases hstep : place = here ++ [name]
            · subst hstep
              exact room_lt_of_step hentry
            · refine room_lt_of_link hentry (fun hinside => hpassed ?_) here
              simpa [hstep] using hinside
          rw [ih (by omega)]
      · rfl

theorem filesInside_eq_of_le (h : t.room inside here < depth) {more : Nat} (hmore : depth ≤ more) :
    t.filesInside enter more inside here path = t.filesInside enter depth inside here path := by
  induction more, hmore using Nat.le_induction with
  | base => rfl
  | succ more hmore ih => rw [filesInside_succ (Nat.lt_of_lt_of_le h hmore), ih]

theorem room_lt_walkDepth (t : FileTree) (inside : List Place) (here : Place) :
    t.room inside here < t.walkDepth := by
  have hcard : (t.places \ inside.toFinset).card ≤ t.entries.length + 1 :=
    (Finset.card_le_card Finset.sdiff_subset).trans t.card_places_le
  have hmul := Nat.mul_le_mul_right (t.height + 1) hcard
  have hdepth : t.walkDepth = (t.entries.length + 1) * (t.height + 1) + (t.height + 1) := by
    rw [walkDepth, ← Nat.succ_mul]
  rw [room, hdepth]
  omega

end Typesweep.FileTree
