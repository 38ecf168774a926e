import Mathlib.Data.List.Basic
import Typesweep.Text.Classes

/-!
# Decimal numerals

A number is read back from its decimal digits, and only from digits.

* `numeral?_eq_some_iff`: what is read.
* `numeral?_ofNat`: reading what was written.
* `isDecimalDigit_of_mem_ofNat`: what was written are decimal digits.
-/

namespace Typesweep.Text

variable {c : Char}

theorem digit?_of_isDigit (h : c.isDigit = true) : digit? c = some (c.toNat - '0'.toNat) := by
  rw [Char.isDigit, Bool.and_eq_true, decide_eq_true_iff, decide_eq_true_iff] at h
  exact if_pos h

/-- Reading goes on from the digits before: the accumulator is the one of `Nat.ofDigitChars`. -/
theorem numeralFrom_of_isDigit {t : Text} (h : ∀ c ∈ t, c.isDigit = true) (value : Nat) :
    numeralFrom value t = some (Nat.ofDigitChars 10 t value) := by
  induction t generalizing value with
  | nil => rfl
  | cons c t ih =>
    rw [numeralFrom, digit?_of_isDigit (h c List.mem_cons_self), Nat.ofDigitChars_cons,
      Nat.mul_comm]
    exact ih (fun d hd => h d (List.mem_cons_of_mem c hd)) _

theorem isDigit_of_numeralFrom {t : Text} {value n : Nat} (h : numeralFrom value t = some n) :
    ∀ c ∈ t, c.isDigit = true := by
  induction t generalizing value with
  | nil => exact List.forall_mem_nil _
  | cons c t ih =>
    rw [numeralFrom] at h
    split at h
    · cases h
    · next d hd =>
      refine List.forall_mem_cons.mpr ⟨?_, ih h⟩
      rw [Char.isDigit, Bool.and_eq_true, decide_eq_true_iff, decide_eq_true_iff]
      by_contra hother
      have hnone : digit? c = none := if_neg hother
      rw [hd] at hnone
      cases hnone

/-- A text is read as a number when it is a row of digits, and then as the one that they write. -/
theorem numeral?_eq_some_iff {t : Text} {n : Nat} :
    numeral? t = some n ↔
      t ≠ [] ∧ (∀ c ∈ t, c.isDigit = true) ∧ Nat.ofDigitChars 10 t 0 = n := by
  rw [numeral?]
  split
  · next hnil => simp [hnil]
  · next hne =>
    constructor
    · intro h
      have hdigits := isDigit_of_numeralFrom h
      rw [numeralFrom_of_isDigit hdigits] at h
      exact ⟨hne, hdigits, Option.some.inj h⟩
    · rintro ⟨-, hdigits, rfl⟩
      exact numeralFrom_of_isDigit hdigits 0

theorem isDigit_of_mem_ofNat {n : Nat} (h : c ∈ ofNat n) : c.isDigit = true :=
  Nat.isDigit_of_mem_toDigits (by decide) (by decide) h

theorem ofNat_ne_nil (n : Nat) : ofNat n ≠ [] :=
  Nat.toDigits_ne_nil

theorem numeral?_ofNat (n : Nat) : numeral? (ofNat n) = some n := by
  rw [numeral?, if_neg (ofNat_ne_nil n), numeralFrom_of_isDigit fun c hc => isDigit_of_mem_ofNat hc]
  exact congrArg some Nat.ofDigitChars_ten_toDigits

theorem isDecimalDigit_of_isDigit (h : c.isDigit = true) : isDecimalDigit c = true := by
  have hascii : c.toNat < 128 := by
    rw [Char.isDigit, Bool.and_eq_true, decide_eq_true_iff, decide_eq_true_iff] at h
    exact Nat.lt_of_le_of_lt h.2 (by decide)
  rw [isDecimalDigit, if_pos hascii, isDigit, digit?_of_isDigit h]
  rfl

theorem isDecimalDigit_of_mem_ofNat {n : Nat} (h : c ∈ ofNat n) : isDecimalDigit c = true :=
  isDecimalDigit_of_isDigit (isDigit_of_mem_ofNat h)

end Typesweep.Text
