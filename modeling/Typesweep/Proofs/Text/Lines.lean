import Mathlib.Data.List.TakeWhile
import Typesweep.Proofs.Text.Cutting

/-!
# Lines

The lines of a text that was put together line by line, and what becomes of the carriage returns
at their ends.

* `lines_append_newline`, `lines_of_newline_notMem`: the first line of a text, and a text that is
  one line.
* `IsWithoutReturns`: a text before the carriage returns at its end.
* `dropCarriageReturns_dropLineEnding`, `dropCarriageReturns_append_return`: one carriage return
  more or less makes no difference once all are dropped.
-/

namespace Typesweep.Text

variable {t : Text}

theorem linesOfPieces_cons {pieces : List Text} (hne : pieces ≠ []) (piece : Text) :
    linesOfPieces (piece :: pieces) = dropLineEnding piece :: linesOfPieces pieces := by
  cases pieces with
  | nil => exact absurd rfl hne
  | cons => rfl

theorem lines_append_newline (h : '\n' ∉ t) (rest : Text) :
    lines (t ++ '\n' :: rest) = dropLineEnding t :: lines rest := by
  rw [lines, splitOn_append_sep, splitOn_eq_singleton h, List.singleton_append,
    linesOfPieces_cons (splitOn_ne_nil _ _)]
  rfl

theorem lines_of_newline_notMem (h : '\n' ∉ t) : lines t = if t = [] then [] else [t] := by
  rw [lines, splitOn_eq_singleton h, linesOfPieces]

theorem trimEnd_append_singleton {drop : Char → Bool} {c : Char} (hc : drop c = true) (t : Text) :
    trimEnd drop (t ++ [c]) = trimEnd drop t := by
  rw [trimEnd, List.reverse_append, List.reverse_singleton, List.singleton_append,
    List.dropWhile_cons_of_pos hc, trimEnd]

theorem trimEnd_of_getLast? {drop : Char → Bool} (h : ∀ c, t.getLast? = some c → drop c = false) :
    trimEnd drop t = t := by
  rcases List.eq_nil_or_concat t with rfl | ⟨start, last, rfl⟩
  · rfl
  · have hlast : drop last = false := h last (by simp)
    rw [trimEnd, List.concat_eq_append, List.reverse_append, List.reverse_singleton,
      List.singleton_append, List.dropWhile_cons_of_neg (by simp [hlast]), List.reverse_cons,
      List.reverse_reverse]

/-- Trimming stops at the end of a text that is kept. -/
theorem trimEnd_append_of_getLast? {drop : Char → Bool}
    (h : ∀ c, t.getLast? = some c → drop c = false) (s : Text) :
    trimEnd drop (t ++ s) = t ++ trimEnd drop s := by
  have hkept : t.reverse.dropWhile drop = t.reverse :=
    List.reverse_injective ((trimEnd_of_getLast? h).trans (List.reverse_reverse t).symm)
  rw [trimEnd, trimEnd, List.reverse_append, List.dropWhile_append, hkept]
  split
  · next hnone => rw [List.isEmpty_iff.mp hnone, List.reverse_reverse, List.reverse_nil,
      List.append_nil]
  · rw [List.reverse_append, List.reverse_reverse]

/-- What was trimmed are characters of the class. -/
theorem exists_trimEnd_append (drop : Char → Bool) (t : Text) :
    ∃ trimmed : Text, t = trimEnd drop t ++ trimmed ∧ ∀ c ∈ trimmed, drop c = true := by
  refine ⟨(t.reverse.takeWhile drop).reverse, ?_, ?_⟩
  · rw [trimEnd, ← List.reverse_append, List.takeWhile_append_dropWhile, List.reverse_reverse]
  · intro c hc
    exact List.mem_takeWhile_imp (List.mem_reverse.mp hc)

theorem dropCarriageReturns_append_return (t : Text) :
    dropCarriageReturns (t ++ ['\r']) = dropCarriageReturns t :=
  trimEnd_append_singleton (by decide) t

theorem dropCarriageReturns_dropLineEnding (t : Text) :
    dropCarriageReturns (dropLineEnding t) = dropCarriageReturns t := by
  unfold dropLineEnding
  split
  · next start heq =>
    have ht : t = start.reverse ++ ['\r'] := by
      rw [← List.reverse_reverse t, heq, List.reverse_cons]
    rw [ht, dropCarriageReturns_append_return]
  · rfl

/-- `start` is the text without the carriage returns at its end. -/
structure IsWithoutReturns (start t : Text) : Prop where
  exists_returns : ∃ count, t = start ++ List.replicate count '\r'
  getLast?_ne : start.getLast? ≠ some '\r'

theorem dropCarriageReturns_replicate (count : Nat) :
    dropCarriageReturns (List.replicate count '\r') = [] := by
  induction count with
  | zero => rfl
  | succ count ih => rw [List.replicate_succ', dropCarriageReturns_append_return, ih]

/-- There is one such text only. -/
theorem IsWithoutReturns.dropCarriageReturns_eq {start : Text} (h : IsWithoutReturns start t) :
    dropCarriageReturns t = start := by
  obtain ⟨count, rfl⟩ := h.exists_returns
  have hlast : ∀ c, start.getLast? = some c → decide (c = '\r') = false := by
    intro c hc
    exact decide_eq_false fun heq => h.getLast?_ne (heq ▸ hc)
  rw [dropCarriageReturns, trimEnd_append_of_getLast? hlast, ← dropCarriageReturns,
    dropCarriageReturns_replicate, List.append_nil]

end Typesweep.Text
