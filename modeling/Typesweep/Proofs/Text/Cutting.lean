import Mathlib.Data.List.Basic
import Typesweep.Text

/-!
# Cutting texts

What `splitOn` gives for texts that were put together, and how `joinWith` undoes it.

* `splitOn_append_sep`, `splitOn_append`: a text with the separator in it, and one with more at its
  end.
* `splitOn_joinWith`, `joinWith_splitOn`: cutting gives back the pieces that were joined, and
  joining the text that was cut.
-/

namespace Typesweep.Text

variable {α : Type} {s t piece : List α} {pieces : List (List α)}

theorem joinWith_cons_cons (sep first second : List α) (rest : List (List α)) :
    joinWith sep (first :: second :: rest) = first ++ sep ++ joinWith sep (second :: rest) :=
  rfl

theorem subset_joinWith {sep : List α} (h : piece ∈ pieces) : piece ⊆ joinWith sep pieces := by
  induction pieces with
  | nil => exact absurd h List.not_mem_nil
  | cons first rest ih =>
    cases rest with
    | nil => exact List.mem_singleton.mp h ▸ List.Subset.refl _
    | cons second rest =>
      rw [joinWith_cons_cons, List.append_assoc]
      rcases List.mem_cons.mp h with rfl | h
      · exact List.subset_append_left _ _
      · exact List.subset_append_of_subset_right _ (List.subset_append_of_subset_right _ (ih h))

theorem joinWith_cons_eq {sep : α} (piece : List α) (pieces : List (List α)) :
    joinWith [sep] (piece :: pieces) = piece ++ pieces.flatMap (sep :: ·) := by
  induction pieces generalizing piece with
  | nil => exact (List.append_nil piece).symm
  | cons next pieces ih =>
    rw [joinWith_cons_cons, ih, List.flatMap_cons, List.append_assoc]
    rfl

/-- The separator stands once between two rows that are joined. -/
theorem joinWith_append {sep : α} {more : List (List α)} (hne : pieces ≠ []) (hmore : more ≠ []) :
    joinWith [sep] (pieces ++ more) = joinWith [sep] pieces ++ sep :: joinWith [sep] more := by
  induction pieces with
  | nil => exact absurd rfl hne
  | cons piece pieces ih =>
    cases pieces with
    | nil =>
      obtain ⟨first, rest, rfl⟩ := List.exists_cons_of_ne_nil hmore
      rw [List.singleton_append, joinWith_cons_cons, List.append_assoc]
      rfl
    | cons second pieces =>
      rw [List.cons_append, List.cons_append, joinWith_cons_cons, ← List.cons_append,
        ih (List.cons_ne_nil _ _), joinWith_cons_cons, List.append_assoc, List.append_assoc,
        List.append_assoc]

variable [DecidableEq α] {sep : α}

theorem splitOn_cons_sep (sep : α) (t : List α) :
    splitOn sep (sep :: t) = [] :: splitOn sep t := by
  rw [splitOn, if_pos rfl]

theorem splitOn_ne_nil (sep : α) (t : List α) : splitOn sep t ≠ [] := by
  induction t with
  | nil => exact List.cons_ne_nil _ _
  | cons c t ih =>
    rw [splitOn]
    split
    · exact List.cons_ne_nil _ _
    · split <;> exact List.cons_ne_nil _ _

/-- A character that does not separate goes to the first piece. -/
theorem splitOn_cons_of_ne {c : α} (hc : c ≠ sep) (h : splitOn sep t = piece :: pieces) :
    splitOn sep (c :: t) = (c :: piece) :: pieces := by
  rw [splitOn, if_neg hc, h]

/-- The first piece starts like the text unless it is empty. -/
theorem head?_of_splitOn_eq_cons {c : α} (h : splitOn sep t = (c :: piece) :: pieces) :
    t.head? = some c := by
  cases t with
  | nil => cases h
  | cons d t =>
    by_cases hd : d = sep
    · subst hd
      rw [splitOn_cons_sep] at h
      cases h
    · obtain ⟨first, others, hfirst⟩ := List.exists_cons_of_ne_nil (splitOn_ne_nil sep t)
      rw [splitOn_cons_of_ne hd hfirst] at h
      cases h
      rfl

theorem splitOn_append_sep (s t : List α) :
    splitOn sep (s ++ sep :: t) = splitOn sep s ++ splitOn sep t := by
  induction s with
  | nil => exact splitOn_cons_sep sep t
  | cons c s ih =>
    by_cases hc : c = sep
    · subst hc
      rw [List.cons_append, splitOn_cons_sep, splitOn_cons_sep, ih, List.cons_append]
    · obtain ⟨piece, pieces, hs⟩ := List.exists_cons_of_ne_nil (splitOn_ne_nil sep s)
      rw [hs, List.cons_append] at ih
      rw [List.cons_append, splitOn_cons_of_ne hc ih, splitOn_cons_of_ne hc hs, List.cons_append]

theorem splitOn_eq_singleton (h : sep ∉ t) : splitOn sep t = [t] := by
  induction t with
  | nil => rfl
  | cons c t ih =>
    rw [List.mem_cons, not_or] at h
    exact splitOn_cons_of_ne (fun heq => h.1 heq.symm) (ih h.2)

/-- What is put at the end of a text goes to the last piece. -/
theorem splitOn_append (ht : sep ∉ t) (hs : splitOn sep s = pieces ++ [piece]) :
    splitOn sep (s ++ t) = pieces ++ [piece ++ t] := by
  induction s generalizing pieces piece with
  | nil =>
    have hnone : [] ++ [[]] = pieces ++ [piece] := hs
    obtain ⟨rfl, hpiece⟩ := List.append_inj' hnone rfl
    obtain rfl := (List.cons.inj hpiece).1
    exact splitOn_eq_singleton ht
  | cons c s ih =>
    by_cases hc : c = sep
    · subst hc
      rw [splitOn_cons_sep] at hs
      cases pieces with
      | nil => exact absurd (List.cons.inj hs).2 (splitOn_ne_nil _ s)
      | cons first pieces =>
        obtain ⟨rfl, hrest⟩ := List.cons.inj hs
        rw [List.cons_append, splitOn_cons_sep, ih hrest, List.cons_append]
    · obtain ⟨first, others, hfirst⟩ := List.exists_cons_of_ne_nil (splitOn_ne_nil sep s)
      rw [splitOn_cons_of_ne hc hfirst] at hs
      cases pieces with
      | nil =>
        obtain ⟨rfl, rfl⟩ := List.cons.inj hs
        have hlast : splitOn sep s = [] ++ [first] := hfirst
        exact splitOn_cons_of_ne hc (ih hlast)
      | cons first' pieces =>
        obtain ⟨rfl, rfl⟩ := List.cons.inj hs
        have hlast : splitOn sep s = first :: pieces ++ [piece] := hfirst
        exact splitOn_cons_of_ne hc (ih hlast)

theorem sep_notMem_of_mem_splitOn (h : piece ∈ splitOn sep t) : sep ∉ piece := by
  induction t generalizing piece with
  | nil =>
    obtain rfl := List.mem_singleton.mp h
    exact List.not_mem_nil
  | cons c t ih =>
    by_cases hc : c = sep
    · subst hc
      rw [splitOn_cons_sep] at h
      rcases List.mem_cons.mp h with rfl | h
      · exact List.not_mem_nil
      · exact ih h
    · obtain ⟨first, others, hfirst⟩ := List.exists_cons_of_ne_nil (splitOn_ne_nil sep t)
      rw [splitOn_cons_of_ne hc hfirst] at h
      rcases List.mem_cons.mp h with rfl | h
      · rw [List.mem_cons, not_or]
        exact ⟨fun heq => hc heq.symm, ih (hfirst ▸ List.mem_cons_self)⟩
      · exact ih (hfirst ▸ List.mem_cons_of_mem first h)

theorem splitOn_joinWith (hne : pieces ≠ []) (h : ∀ piece ∈ pieces, sep ∉ piece) :
    splitOn sep (joinWith [sep] pieces) = pieces := by
  induction pieces with
  | nil => exact absurd rfl hne
  | cons first rest ih =>
    have hfirst : splitOn sep first = [first] := splitOn_eq_singleton (h first List.mem_cons_self)
    cases rest with
    | nil => exact hfirst
    | cons second rest =>
      have hrest := ih (List.cons_ne_nil _ _) fun piece hpiece =>
        h piece (List.mem_cons_of_mem first hpiece)
      rw [joinWith_cons_cons, List.append_assoc, List.singleton_append, splitOn_append_sep, hfirst,
        hrest, List.singleton_append]

/-- A text ends with the separator just if it is cut there into a last piece that is empty. -/
theorem getLast?_eq_sep_iff (hne : t ≠ []) :
    t.getLast? = some sep ↔ (splitOn sep t).getLast? = some [] := by
  obtain ⟨start, c, rfl⟩ := (List.eq_nil_or_concat' t).resolve_left hne
  by_cases hc : c = sep
  · subst hc
    rw [splitOn_append_sep]
    simp [splitOn]
  · have hpieces := List.dropLast_concat_getLast (splitOn_ne_nil sep start)
    rw [splitOn_append (by simpa using fun heq => hc heq.symm) hpieces.symm]
    simp [hc]

theorem joinWith_splitOn (sep : α) (t : List α) : joinWith [sep] (splitOn sep t) = t := by
  induction t with
  | nil => rfl
  | cons c t ih =>
    obtain ⟨piece, pieces, hpieces⟩ := List.exists_cons_of_ne_nil (splitOn_ne_nil sep t)
    rw [hpieces] at ih
    by_cases hc : c = sep
    · subst hc
      rw [splitOn_cons_sep, hpieces, joinWith_cons_cons, ih]
      rfl
    · rw [splitOn_cons_of_ne hc hpieces]
      cases pieces with
      | nil => exact congrArg (c :: ·) ih
      | cons second rest => exact congrArg (c :: ·) ih

theorem subset_of_mem_splitOn (h : piece ∈ splitOn sep t) : piece ⊆ t := by
  have hpiece : piece ⊆ joinWith [sep] (splitOn sep t) := subset_joinWith h
  rwa [joinWith_splitOn] at hpiece

end Typesweep.Text
