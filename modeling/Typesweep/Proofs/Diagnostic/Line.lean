import Typesweep.Proofs.Diagnostic.Cut
import Typesweep.Proofs.Text.Lines
import Typesweep.Proofs.Text.Numerals

/-!
# One line of an output

What is read from a line depends on its cut with the shortest file alone. If the row and the column
there are numbers that fit, the line reports a problem; if they are not, it reports none, even when
a longer file would leave numbers that fit.

* `Parts.IsShortestCut`, `Parts.Fits`: the cut that counts, and when it makes a problem.
* `existsUnique_shortestCut`: a line that can be cut at all has one such cut.
* `ofOutput_line`: the main result.
-/

namespace Typesweep.Diagnostic

open Text

variable {cwd : Path} {t start : Text} {p q : Parts}

/-! ## Numbers -/

/-- A number of 32 bits in ASCII digits. -/
structure IsWord (t : Text) : Prop where
  digits : ∀ c ∈ t, c.isDigit = true
  lt : Nat.ofDigitChars 10 t 0 < UInt32.size

theorem word?_eq_none (h : ¬IsWord t) : word? t = none := by
  rw [word?]
  cases hread : numeral? t with
  | none => rfl
  | some n =>
    obtain ⟨-, hdigits, rfl⟩ := numeral?_eq_some_iff.mp hread
    exact if_neg fun hlt => h ⟨hdigits, hlt⟩

theorem IsWord.word?_eq (h : IsWord t) (hne : t ≠ []) :
    word? t = some (UInt32.ofNat (Nat.ofDigitChars 10 t 0)) := by
  rw [word?, numeral?_eq_some_iff.mpr ⟨hne, h.digits, rfl⟩]
  exact if_pos h.lt

/-! ## The shortest cut -/

namespace Parts

/-- The cut of a line with the shortest file. -/
structure IsShortestCut (p : Parts) (t : Text) : Prop extends IsCut p t where
  shortest : ∀ q : Parts, q.IsCut t → p.file.length ≤ q.file.length

/-- The row and the column are numbers of 32 bits. -/
structure Fits (p : Parts) : Prop where
  line : IsWord p.line
  column : IsWord p.column

/-- The problem that the parts spell. A relative file is one below `cwd`. -/
def diagnostic (p : Parts) (cwd : Path) : Diagnostic where
  file := cwd.absolutize (.ofText p.file)
  line := UInt32.ofNat (Nat.ofDigitChars 10 p.line 0)
  column := UInt32.ofNat (Nat.ofDigitChars 10 p.column 0)
  code := p.code
  message := p.message

theorem isShortestCut_iff : p.IsShortestCut t ↔ splitLine? t = some p := by
  rw [splitLine?_eq_some_iff]
  exact ⟨fun h => ⟨h.toIsCut, h.shortest⟩, fun h => ⟨h.1, h.2⟩⟩

/-- A line that can be cut has one shortest cut. -/
theorem existsUnique_shortestCut (h : ∃ q : Parts, q.IsCut t) :
    ∃! p : Parts, p.IsShortestCut t := by
  obtain ⟨q, hq⟩ := h
  cases hfound : splitLine? t with
  | none => exact absurd hq (splitLine?_eq_none_iff.mp hfound q)
  | some p =>
    refine ⟨p, isShortestCut_iff.mpr hfound, fun other hother => ?_⟩
    have hother' := isShortestCut_iff.mp hother
    exact Option.some.inj (hother'.symm.trans hfound)

end Parts

/-! ## Lines -/

theorem ofLine?_of_fits (hp : p.IsShortestCut (dropCarriageReturns t)) (hfits : p.Fits) :
    ofLine? cwd t = some (p.diagnostic cwd) := by
  rw [ofLine?, Parts.isShortestCut_iff.mp hp]
  simp only [Option.bind_eq_bind, Option.bind_some, hfits.line.word?_eq hp.line.1,
    hfits.column.word?_eq hp.column.1]
  rfl

theorem ofLine?_of_not_fits (hp : p.IsShortestCut (dropCarriageReturns t)) (hfits : ¬p.Fits) :
    ofLine? cwd t = none := by
  rw [ofLine?, Parts.isShortestCut_iff.mp hp]
  simp only [Option.bind_eq_bind, Option.bind_some]
  by_cases hline : IsWord p.line
  · have hcolumn : ¬IsWord p.column := fun hcolumn => hfits ⟨hline, hcolumn⟩
    rw [word?_eq_none hcolumn, hline.word?_eq hp.line.1]
    rfl
  · rw [word?_eq_none hline]
    rfl

/-- A line reports a problem exactly if its shortest cut makes one. -/
theorem ofLine?_eq_some_iff {d : Diagnostic} :
    ofLine? cwd t = some d ↔
      ∃ p : Parts, p.IsShortestCut (dropCarriageReturns t) ∧ p.Fits ∧ d = p.diagnostic cwd := by
  constructor
  · intro h
    cases hcut : splitLine? (dropCarriageReturns t) with
    | none =>
      rw [ofLine?, hcut] at h
      cases h
    | some p =>
      have hp := Parts.isShortestCut_iff.mpr hcut
      by_cases hfits : p.Fits
      · rw [ofLine?_of_fits hp hfits] at h
        exact ⟨p, hp, hfits, (Option.some.inj h).symm⟩
      · rw [ofLine?_of_not_fits hp hfits] at h
        cases h
  · rintro ⟨p, hp, hfits, rfl⟩
    exact ofLine?_of_fits hp hfits

theorem ofOutput_of_newline_notMem (ht : '\n' ∉ t) : ofOutput cwd t = (ofLine? cwd t).toList := by
  rw [ofOutput, lines_of_newline_notMem ht]
  split
  · next hnil =>
    subst hnil
    rfl
  · rw [List.filterMap_cons, List.filterMap_nil]
    cases ofLine? cwd t <;> rfl

/-- A line without the carriage returns at its end is cut where the file is shortest, and reports
the problem that the parts spell if the numbers there fit. If they do not, or if there is no cut, it
reports nothing. -/
theorem ofOutput_line (cwd : Path) (ht : '\n' ∉ t) (hstart : IsWithoutReturns start t) :
    (∀ d, ofOutput cwd t = [d] ↔
      ∃ p : Parts, p.IsShortestCut start ∧ p.Fits ∧ d = p.diagnostic cwd) ∧
    (ofOutput cwd t = [] ↔ ∀ p : Parts, p.IsShortestCut start → ¬p.Fits) ∧
    ((∃ q : Parts, q.IsCut start) → ∃! p : Parts, p.IsShortestCut start) := by
  obtain rfl := hstart.dropCarriageReturns_eq
  rw [ofOutput_of_newline_notMem ht]
  refine ⟨fun d => ?_, ?_, Parts.existsUnique_shortestCut⟩
  · rw [← ofLine?_eq_some_iff]
    cases ofLine? cwd t <;> simp
  · rw [Option.toList_eq_nil_iff, Option.eq_none_iff_forall_ne_some]
    constructor
    · intro hnone p hp hfits
      exact hnone _ (ofLine?_of_fits hp hfits)
    · intro hall d hd
      obtain ⟨p, hp, hfits, -⟩ := ofLine?_eq_some_iff.mp hd
      exact hall p hp hfits

/-- A line with two cuts: the row of the first one is one too large, and the second one fits. -/
def twoCuts : Text :=
  "a(4294967296,1): error E1: b(2,3): error E2: c".toList

/-- That a longer file leaves numbers that fit does not help. -/
theorem ofOutput_line_tooLarge :
    '\n' ∉ twoCuts ++ ['\r', '\r'] ∧ IsWithoutReturns twoCuts (twoCuts ++ ['\r', '\r']) ∧
      (∃ q : Parts, q.IsCut twoCuts ∧ q.Fits) ∧
        ofOutput (.ofString "/w") (twoCuts ++ ['\r', '\r']) = [] := by
  have ht : '\n' ∉ twoCuts ++ ['\r', '\r'] := by decide
  have hstart : IsWithoutReturns twoCuts (twoCuts ++ ['\r', '\r']) := ⟨⟨2, rfl⟩, by decide⟩
  have hcut : splitLine? twoCuts = some ⟨"a".toList, "4294967296".toList, "1".toList, "E1".toList,
      "b(2,3): error E2: c".toList⟩ := rfl
  have hother : Parts.IsCut ⟨"a(4294967296,1): error E1: b".toList, "2".toList, "3".toList,
      "E2".toList, "c".toList⟩ twoCuts :=
    { line := ⟨by decide, List.all_eq_true.mp rfl⟩
      column := ⟨by decide, List.all_eq_true.mp rfl⟩
      code := ⟨by decide, List.all_eq_true.mp rfl⟩
      file_ne_nil := by decide
      spelling_eq := rfl }
  have hline : IsWord "2".toList := ⟨List.all_eq_true.mp rfl, by decide⟩
  have hcolumn : IsWord "3".toList := ⟨List.all_eq_true.mp rfl, by decide⟩
  refine ⟨ht, hstart, ⟨_, hother, hline, hcolumn⟩, ?_⟩
  refine (ofOutput_line _ ht hstart).2.1.mpr fun p hp hfits => ?_
  rw [Parts.isShortestCut_iff, hcut] at hp
  obtain rfl := Option.some.inj hp
  exact absurd hfits.line.lt (by decide)

end Typesweep.Diagnostic
