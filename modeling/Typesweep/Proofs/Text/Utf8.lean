import Mathlib.Algebra.GroupWithZero.Nat
import Mathlib.Data.List.Basic
import Typesweep.Proofs.Text.Cutting
import Typesweep.Text.Utf8

/-!
# Texts and bytes

The bytes of a text are read back as that text, and so tell it from every other one. Bytes that are
those of no text are shown as one too, but not they alone.

A character below `0x80` is one byte, and that byte is part of no other character. So reading bytes
as a text may be done piece by piece between slashes, and a name made of such characters is shown by
itself only.

* `ofBytes_toUtf8`, `toUtf8_injective`: the bytes of a text.
* `IsUtf8`, `isUtf8_iff`: bytes that are those of a text.
* `ofBytes_append_slash`, `splitOn_ofBytes`: what is shown for pieces between slashes.
* `ofBytes_eq_iff`: what is shown as a text of characters below `0x80`.
-/

namespace Typesweep.Text

open RawText (slash dot)

variable {c : Char} {t u : Text} {b : UInt8} {s r : RawText} {begun : Begun}

/-! ## The bytes of a text -/

@[simp]
theorem toUtf8_nil : toUtf8 [] = [] := rfl

theorem toUtf8_cons (c : Char) (t : Text) : toUtf8 (c :: t) = String.utf8EncodeChar c ++ toUtf8 t :=
  rfl

theorem toUtf8_append (t u : Text) : toUtf8 (t ++ u) = toUtf8 t ++ toUtf8 u :=
  List.flatMap_append

theorem toUtf8_cons_slash (t : Text) : toUtf8 ('/' :: t) = slash :: toUtf8 t := rfl

theorem toUtf8_cons_dot (t : Text) : toUtf8 ('.' :: t) = dot :: toUtf8 t := rfl

/-! ## Reading a character -/

theorem toNat_ofNat_of_lt {n : Nat} (h : n < 256) : (UInt8.ofNat n).toNat = n := by
  rw [UInt8.toNat_ofNat']
  omega

theorem decodeFrom_of_lt (hb : b.toNat < 0x80) (s : RawText) :
    decodeFrom none (b :: s) = Char.ofNat b.toNat :: decodeFrom none s := by
  rw [decodeFrom]
  simp only [if_pos (show b < 0x80 from hb)]

theorem decodeFrom_of_lead (hb : 0x80 ≤ b.toNat) (hlead : Begun.ofLead? b = some begun)
    (s : RawText) : decodeFrom none (b :: s) = decodeFrom (some begun) s := by
  have hnot : ¬ b < 0x80 := fun hlt => by
    have hlt : b.toNat < 0x80 := hlt
    omega
  rw [decodeFrom]
  simp only [if_neg hnot, hlead]

/-- A byte that starts no character. -/
theorem decodeFrom_of_stray (hb : 0x80 ≤ b.toNat) (hlead : Begun.ofLead? b = none) (s : RawText) :
    decodeFrom none (b :: s) = replacement :: decodeFrom none s := by
  have hnot : ¬ b < 0x80 := fun hlt => by
    have hlt : b.toNat < 0x80 := hlt
    omega
  rw [decodeFrom]
  simp only [if_neg hnot, hlead]

theorem decodeFrom_last {value : Nat} {low high : UInt8}
    (hb : low.toNat ≤ b.toNat ∧ b.toNat ≤ high.toNat) (s : RawText) :
    decodeFrom (some ⟨value, 1, low, high⟩) (b :: s) =
      Char.ofNat (value * 64 + b.toNat % 64) :: decodeFrom none s := by
  rw [decodeFrom]
  simp [UInt8.le_iff_toNat_le, hb]

theorem decodeFrom_next {value more : Nat} {low high : UInt8}
    (hb : low.toNat ≤ b.toNat ∧ b.toNat ≤ high.toNat) (s : RawText) :
    decodeFrom (some ⟨value, more + 2, low, high⟩) (b :: s) =
      decodeFrom (some ⟨value * 64 + b.toNat % 64, more + 1, 0x80, 0xbf⟩) s := by
  rw [decodeFrom]
  simp [UInt8.le_iff_toNat_le, hb]

theorem ofLead?_two (h : 0xc2 ≤ b.toNat ∧ b.toNat ≤ 0xdf) :
    Begun.ofLead? b = some ⟨b.toNat % 32, 1, 0x80, 0xbf⟩ := by
  simp [Begun.ofLead?, UInt8.le_iff_toNat_le, h]

/-- After the first byte of three, those that a shorter form or half of a pair would have are left
out. -/
theorem ofLead?_three (h : 0xe0 ≤ b.toNat ∧ b.toNat ≤ 0xef) :
    Begun.ofLead? b = some ⟨b.toNat % 16, 2, if b.toNat = 0xe0 then 0xa0 else 0x80,
      if b.toNat = 0xed then 0x9f else 0xbf⟩ := by
  have htwo : ¬ b.toNat ≤ 0xdf := by omega
  by_cases hlow : b.toNat = 0xe0
  · simp [Begun.ofLead?, UInt8.le_iff_toNat_le, ← UInt8.toNat_inj, hlow]
  · by_cases hhigh : b.toNat = 0xed
    · simp [Begun.ofLead?, UInt8.le_iff_toNat_le, ← UInt8.toNat_inj, hhigh]
    · have hlead : 0xe1 ≤ b.toNat := by omega
      simp [Begun.ofLead?, UInt8.le_iff_toNat_le, ← UInt8.toNat_inj, hlow, hhigh, htwo, hlead, h.2]

/-- After the first byte of four, those that a shorter form or too great a code would have are left
out. -/
theorem ofLead?_four (h : 0xf0 ≤ b.toNat ∧ b.toNat ≤ 0xf4) :
    Begun.ofLead? b = some ⟨b.toNat % 8, 3, if b.toNat = 0xf0 then 0x90 else 0x80,
      if b.toNat = 0xf4 then 0x8f else 0xbf⟩ := by
  have hthree : ¬ b.toNat ≤ 0xef := by omega
  have htwo : ¬ b.toNat ≤ 0xdf := by omega
  by_cases hlow : b.toNat = 0xf0
  · simp [Begun.ofLead?, UInt8.le_iff_toNat_le, ← UInt8.toNat_inj, hlow]
  · by_cases hhigh : b.toNat = 0xf4
    · simp [Begun.ofLead?, UInt8.le_iff_toNat_le, ← UInt8.toNat_inj, hhigh]
    · have hlead : 0xf1 ≤ b.toNat ∧ b.toNat ≤ 0xf3 := by omega
      have hne : b.toNat ≠ 0xe0 ∧ b.toNat ≠ 0xed := by omega
      simp [Begun.ofLead?, UInt8.le_iff_toNat_le, ← UInt8.toNat_inj, hlow, hhigh, htwo, hthree,
        hlead, hne]

/-- The bytes of a character are read as that character. -/
theorem decodeFrom_utf8EncodeChar (c : Char) (s : RawText) :
    decodeFrom none (String.utf8EncodeChar c ++ s) = c :: decodeFrom none s := by
  have hvalid : c.val.toNat < 0xd800 ∨ 0xdfff < c.val.toNat ∧ c.val.toNat < 0x110000 := c.valid
  have hcode {n : Nat} (h : n = c.val.toNat) : Char.ofNat n = c := h ▸ Char.ofNat_toNat c
  unfold String.utf8EncodeChar
  generalize c.val.toNat = v at hvalid hcode ⊢
  have hlast : (UInt8.ofNat (v % 64 + 128)).toNat = v % 64 + 128 := toNat_ofNat_of_lt (by omega)
  have hthird : (UInt8.ofNat (v / 64 % 64 + 128)).toNat = v / 64 % 64 + 128 :=
    toNat_ofNat_of_lt (by omega)
  have hsecond : (UInt8.ofNat (v / 4096 % 64 + 128)).toNat = v / 4096 % 64 + 128 :=
    toNat_ofNat_of_lt (by omega)
  have hlow : (0x80 : UInt8).toNat = 0x80 := rfl
  have hhigh : (0xbf : UInt8).toNat = 0xbf := rfl
  dsimp only
  split
  · have hb : (UInt8.ofNat v).toNat = v := toNat_ofNat_of_lt (by omega)
    rw [List.cons_append, List.nil_append, decodeFrom_of_lt (by omega), hb, hcode rfl]
  · split
    · have hb : (UInt8.ofNat (v / 64 % 32 + 192)).toNat = v / 64 % 32 + 192 :=
        toNat_ofNat_of_lt (by omega)
      rw [List.cons_append, List.cons_append, List.nil_append,
        decodeFrom_of_lead (by omega) (ofLead?_two (by omega)), decodeFrom_last (by omega), hlast,
        hb, hcode (by omega)]
    · split
      · have hb : (UInt8.ofNat (v / 4096 % 16 + 224)).toNat = v / 4096 % 16 + 224 :=
          toNat_ofNat_of_lt (by omega)
        rw [List.cons_append, List.cons_append, List.cons_append, List.nil_append,
          decodeFrom_of_lead (by omega) (ofLead?_three (by omega)), decodeFrom_next,
          decodeFrom_last (by omega), hlast, hthird, hb, hcode (by omega)]
        rw [hthird, hb]
        have hshort : (0xa0 : UInt8).toNat = 0xa0 := rfl
        have hpair : (0x9f : UInt8).toNat = 0x9f := rfl
        constructor <;> split <;> omega
      · have hb : (UInt8.ofNat (v / 262144 % 8 + 240)).toNat = v / 262144 % 8 + 240 :=
          toNat_ofNat_of_lt (by omega)
        rw [List.cons_append, List.cons_append, List.cons_append, List.cons_append,
          List.nil_append, decodeFrom_of_lead (by omega) (ofLead?_four (by omega)),
          decodeFrom_next, decodeFrom_next (by omega), decodeFrom_last (by omega), hlast, hthird,
          hsecond, hb, hcode (by omega)]
        rw [hsecond, hb]
        have hshort : (0x90 : UInt8).toNat = 0x90 := rfl
        have hgreat : (0x8f : UInt8).toNat = 0x8f := rfl
        constructor <;> split <;> omega

@[simp]
theorem ofBytes_toUtf8 (t : Text) : ofBytes (toUtf8 t) = t := by
  induction t with
  | nil => rfl
  | cons c t ih =>
    rw [toUtf8_cons, ofBytes, decodeFrom_utf8EncodeChar]
    exact congrArg (c :: ·) ih

theorem toUtf8_injective (h : toUtf8 t = toUtf8 u) : t = u := by
  rw [← ofBytes_toUtf8 t, h, ofBytes_toUtf8]

/-- Whether the bytes are those of a text: the one they are shown as. -/
def IsUtf8 (s : RawText) : Prop :=
  toUtf8 (ofBytes s) = s

instance : DecidablePred IsUtf8 := fun s =>
  inferInstanceAs (Decidable (toUtf8 (ofBytes s) = s))

theorem isUtf8_toUtf8 (t : Text) : IsUtf8 (toUtf8 t) := by
  rw [IsUtf8, ofBytes_toUtf8]

/-- These bytes, and no others, are those of some text. -/
theorem isUtf8_iff : IsUtf8 s ↔ ∃ t, toUtf8 t = s :=
  ⟨fun h => ⟨ofBytes s, h⟩, fun ⟨t, ht⟩ => ht ▸ isUtf8_toUtf8 t⟩

/-! ## Characters of one byte -/

/-- Whether a character is a single byte. -/
def IsShort (c : Char) : Prop :=
  c.toNat < 0x80

instance : DecidablePred IsShort := fun c =>
  inferInstanceAs (Decidable (c.toNat < 0x80))

/-- Whether all characters of a text are single bytes. -/
def AreShort (t : Text) : Prop :=
  ∀ c ∈ t, IsShort c

-- The list is gone through, not all the characters that there are.
instance : DecidablePred AreShort := fun t =>
  List.decidableBAll IsShort t

/-- The least code that a character can have of which the first bytes have been read. -/
def Begun.least (c : Begun) : Nat :=
  (c.value * 64 + c.low.toNat % 64) * 64 ^ (c.more - 1)

/-- The codes that such a character can have are less than this. -/
def Begun.bound (c : Begun) : Nat :=
  (c.value * 64 + c.high.toNat % 64 + 1) * 64 ^ (c.more - 1)

/-- Whether all codes that such a character can have are those of characters of several bytes. -/
structure Begun.IsLong (c : Begun) : Prop where
  more : 1 ≤ c.more
  bytes : 0x80 ≤ c.low.toNat ∧ c.high.toNat ≤ 0xbf
  least : 0x80 ≤ c.least
  bound : c.bound ≤ 0xd800 ∨ 0xe000 ≤ c.least ∧ c.bound ≤ 0x110000

/-- The bytes that start a character. -/
theorem range_of_ofLead? (h : Begun.ofLead? b = some begun) :
    (0xc2 ≤ b.toNat ∧ b.toNat ≤ 0xdf) ∨ (0xe0 ≤ b.toNat ∧ b.toNat ≤ 0xef) ∨
      (0xf0 ≤ b.toNat ∧ b.toNat ≤ 0xf4) := by
  simp only [Begun.ofLead?, Bool.and_eq_true, decide_eq_true_iff, UInt8.le_iff_toNat_le,
    ← UInt8.toNat_inj, UInt8.reduceToNat] at h
  split_ifs at h <;> omega

theorem toNat_ite (p : Prop) [Decidable p] (a b : UInt8) :
    p ∧ (if p then a else b).toNat = a.toNat ∨ ¬p ∧ (if p then a else b).toNat = b.toNat := by
  split
  · next h => exact .inl ⟨h, rfl⟩
  · next h => exact .inr ⟨h, rfl⟩

theorem Begun.isLong_of_ofLead? (h : Begun.ofLead? b = some begun) : begun.IsLong := by
  rcases range_of_ofLead? h with hb | hb | hb
  · obtain rfl := Option.some.inj ((ofLead?_two hb).symm.trans h)
    constructor <;> simp only [least, bound, UInt8.reduceToNat] <;> omega
  · obtain rfl := Option.some.inj ((ofLead?_three hb).symm.trans h)
    have hlow := toNat_ite (b.toNat = 0xe0) 0xa0 0x80
    have hhigh := toNat_ite (b.toNat = 0xed) 0x9f 0xbf
    simp only [UInt8.reduceToNat] at hlow hhigh
    constructor <;> simp only [least, bound] <;> omega
  · obtain rfl := Option.some.inj ((ofLead?_four hb).symm.trans h)
    have hlow := toNat_ite (b.toNat = 0xf0) 0x90 0x80
    have hhigh := toNat_ite (b.toNat = 0xf4) 0x8f 0xbf
    simp only [UInt8.reduceToNat] at hlow hhigh
    constructor <;> simp only [least, bound] <;> omega

/-- The character of a code that is that of one of several bytes. -/
theorem not_isShort_ofNat {n : Nat} (h : 0x80 ≤ n)
    (hvalid : n < 0xd800 ∨ 0xe000 ≤ n ∧ n < 0x110000) : ¬ IsShort (Char.ofNat n) := by
  have hn : n.isValidChar := by
    unfold Nat.isValidChar
    omega
  have hcode : (Char.ofNat n).toNat = n := by
    rw [Char.ofNat, dif_pos hn]
    rfl
  rw [IsShort, hcode]
  omega

/-- A begun character with one byte more of which others are to come. -/
def Begun.next (c : Begun) (b : UInt8) : Begun :=
  ⟨c.value * 64 + b.toNat % 64, c.more - 1, 0x80, 0xbf⟩

/-- A byte more leaves only some of the codes. -/
theorem Begun.IsLong.next (h : begun.IsLong) (hmore : 2 ≤ begun.more)
    (hb : begun.low.toNat ≤ b.toNat ∧ b.toNat ≤ begun.high.toNat) : (begun.next b).IsLong := by
  obtain ⟨-, hbytes, hleast, hbound⟩ := h
  obtain ⟨more, hmore⟩ : ∃ more, begun.more = more + 2 := ⟨begun.more - 2, by omega⟩
  have hpow : 64 ^ (begun.more - 1) = 64 * 64 ^ more := by
    rw [hmore, show more + 2 - 1 = more + 1 by omega, Nat.pow_succ, Nat.mul_comm]
  have hle : begun.least ≤ (begun.next b).least := by
    have hnext : (begun.next b).least = (begun.value * 64 + b.toNat % 64) * 64 * 64 ^ more := by
      simp [Begun.next, Begun.least, hmore]
    rw [hnext, Begun.least, hpow, ← Nat.mul_assoc]
    exact Nat.mul_le_mul_right _ (by omega)
  have hge : (begun.next b).bound ≤ begun.bound := by
    have hnext : (begun.next b).bound =
        ((begun.value * 64 + b.toNat % 64) * 64 + 64) * 64 ^ more := by
      simp [Begun.next, Begun.bound, hmore]
    rw [hnext, Begun.bound, hpow, ← Nat.mul_assoc]
    exact Nat.mul_le_mul_right _ (by omega)
  refine ⟨?_, ⟨Nat.le_refl _, Nat.le_refl _⟩, Nat.le_trans hleast hle, by omega⟩
  show 1 ≤ begun.more - 1
  omega

/-- A byte that goes on with a character finishes it, or leaves others to come. -/
theorem Begun.IsLong.decodeFrom_cons (h : begun.IsLong)
    (hb : begun.low.toNat ≤ b.toNat ∧ b.toNat ≤ begun.high.toNat) :
    (∃ c, ¬ IsShort c ∧ ∀ s, decodeFrom (some begun) (b :: s) = c :: decodeFrom none s) ∨
      (begun.next b).IsLong ∧
        ∀ s, decodeFrom (some begun) (b :: s) = decodeFrom (some (begun.next b)) s := by
  obtain hmore | hmore : 2 ≤ begun.more ∨ begun.more = 1 := by
    have hmore := h.more
    omega
  · obtain ⟨more, hmore'⟩ : ∃ more, begun.more = more + 2 := ⟨begun.more - 2, by omega⟩
    refine .inr ⟨h.next hmore hb, ?_⟩
    obtain ⟨value, _, low, high⟩ := begun
    obtain rfl := hmore'
    exact decodeFrom_next hb
  · obtain ⟨-, hbytes, hleast, hbound⟩ := h
    obtain ⟨value, _, low, high⟩ := begun
    obtain rfl := hmore
    simp only [Begun.least, Begun.bound, Nat.sub_self, Nat.pow_zero, Nat.mul_one] at hleast hbound
    dsimp only at hbytes hb
    exact .inl ⟨_, not_isShort_ofNat (by omega) (by omega), decodeFrom_last hb⟩

/-- A byte that does not go on with a character is read as if there was none before it. -/
theorem decodeFrom_cons_of_not_le
    (hb : ¬(begun.low.toNat ≤ b.toNat ∧ b.toNat ≤ begun.high.toNat)) (s : RawText) :
    decodeFrom (some begun) (b :: s) = replacement :: decodeFrom none (b :: s) := by
  rw [decodeFrom, decodeFrom]
  simp only [UInt8.le_iff_toNat_le, Bool.and_eq_true, decide_eq_true_iff, if_neg hb]

theorem not_isShort_replacement : ¬ IsShort replacement := by
  decide

/-- A begun character is shown as one of several bytes, or as one that stands for what there is of
it. -/
theorem Begun.IsLong.exists_cons (h : begun.IsLong) (s : RawText) :
    ∃ c rest, ¬ IsShort c ∧ decodeFrom (some begun) s = c :: rest := by
  induction s generalizing begun with
  | nil => exact ⟨replacement, [], not_isShort_replacement, rfl⟩
  | cons b s ih =>
    by_cases hb : begun.low.toNat ≤ b.toNat ∧ b.toNat ≤ begun.high.toNat
    · rcases h.decodeFrom_cons hb with ⟨c, hc, hread⟩ | ⟨hnext, hread⟩
      · exact ⟨c, _, hc, hread s⟩
      · rw [hread]
        exact ih hnext
    · exact ⟨replacement, _, not_isShort_replacement, decodeFrom_cons_of_not_le hb s⟩

/-- What a byte does that is no character by itself: it shows no character of one byte, and what
comes after it is read independently of that. -/
theorem exists_decodeFrom_cons_none (hb : 0x80 ≤ b.toNat) :
    ∃ (shown : Text) (next : Option Begun), (∀ c ∈ shown, ¬ IsShort c) ∧
      (∀ c ∈ next, c.IsLong) ∧ ∀ s, decodeFrom none (b :: s) = shown ++ decodeFrom next s := by
  cases hlead : Begun.ofLead? b with
  | some begun =>
    refine ⟨[], some begun, by simp, ?_, decodeFrom_of_lead hb hlead⟩
    intro c hc
    obtain rfl := Option.some.inj hc
    exact Begun.isLong_of_ofLead? hlead
  | none =>
    exact ⟨[replacement], none, by simpa using not_isShort_replacement, by simp,
      decodeFrom_of_stray hb hlead⟩

theorem exists_decodeFrom_cons (hb : 0x80 ≤ b.toNat) {begun? : Option Begun}
    (h : ∀ c ∈ begun?, c.IsLong) :
    ∃ (shown : Text) (next : Option Begun), (∀ c ∈ shown, ¬ IsShort c) ∧
      (∀ c ∈ next, c.IsLong) ∧ ∀ s, decodeFrom begun? (b :: s) = shown ++ decodeFrom next s := by
  cases begun? with
  | none => exact exists_decodeFrom_cons_none hb
  | some begun =>
    have h : begun.IsLong := h begun rfl
    by_cases hrange : begun.low.toNat ≤ b.toNat ∧ b.toNat ≤ begun.high.toNat
    · rcases h.decodeFrom_cons hrange with ⟨c, hc, hread⟩ | ⟨hnext, hread⟩
      · exact ⟨[c], none, by simpa using hc, by simp, hread⟩
      · refine ⟨[], some (begun.next b), by simp, ?_, hread⟩
        intro c hc
        obtain rfl := Option.some.inj hc
        exact hnext
    · obtain ⟨shown, next, hshown, hnext, hread⟩ := exists_decodeFrom_cons_none hb
      refine ⟨replacement :: shown, next, ?_, hnext, fun s => ?_⟩
      · intro c hc
        rcases List.mem_cons.mp hc with rfl | hc
        · exact not_isShort_replacement
        · exact hshown c hc
      · rw [decodeFrom_cons_of_not_le hrange, hread, List.cons_append]

/-- A byte that is a character by itself ends the one before it. -/
theorem decodeFrom_cons_short (hb : b.toNat < 0x80) {begun? : Option Begun}
    (h : ∀ c ∈ begun?, c.IsLong) (s : RawText) :
    decodeFrom begun? (b :: s) =
      decodeFrom begun? [] ++ Char.ofNat b.toNat :: decodeFrom none s := by
  cases begun? with
  | none => exact decodeFrom_of_lt hb s
  | some begun =>
    have hbytes := (h begun rfl).bytes
    rw [decodeFrom_cons_of_not_le (by omega), decodeFrom_of_lt hb]
    rfl

theorem decodeFrom_append_short (hb : b.toNat < 0x80) (s : RawText) {begun? : Option Begun}
    (h : ∀ c ∈ begun?, c.IsLong) (r : RawText) :
    decodeFrom begun? (s ++ b :: r) =
      decodeFrom begun? s ++ Char.ofNat b.toNat :: decodeFrom none r := by
  induction s generalizing begun? with
  | nil => exact decodeFrom_cons_short hb h r
  | cons a s ih =>
    by_cases ha : a.toNat < 0x80
    · rw [List.cons_append, decodeFrom_cons_short ha h, decodeFrom_cons_short ha h, ih (by simp),
        List.append_assoc, List.cons_append]
    · obtain ⟨shown, next, -, hnext, hread⟩ := exists_decodeFrom_cons (Nat.le_of_not_lt ha) h
      rw [List.cons_append, hread, hread, ih hnext, List.append_assoc]

/-- Pieces between slashes are read one by one. -/
theorem ofBytes_append_slash (s r : RawText) :
    ofBytes (s ++ slash :: r) = ofBytes s ++ '/' :: ofBytes r :=
  decodeFrom_append_short (by decide) s (by simp) r

theorem ofBytes_cons_slash (r : RawText) : ofBytes (slash :: r) = '/' :: ofBytes r :=
  decodeFrom_of_lt (by decide) r

theorem not_isShort_of_mem_decodeFrom_nil {begun? : Option Begun}
    (h : c ∈ decodeFrom begun? []) : ¬ IsShort c := by
  cases begun? with
  | none => exact absurd h List.not_mem_nil
  | some begun =>
    obtain rfl := List.mem_singleton.mp h
    exact not_isShort_replacement

theorem toNat_ofNat_of_short (hb : b.toNat < 0x80) : (Char.ofNat b.toNat).toNat = b.toNat := by
  rw [Char.ofNat, dif_pos (by unfold Nat.isValidChar; omega)]
  rfl

/-- A character of one byte is only shown for its byte. -/
theorem mem_of_mem_decodeFrom (hc : IsShort c) {begun? : Option Begun}
    (h : ∀ c ∈ begun?, c.IsLong) (hmem : c ∈ decodeFrom begun? s) : UInt8.ofNat c.toNat ∈ s := by
  induction s generalizing begun? with
  | nil => exact absurd hc (not_isShort_of_mem_decodeFrom_nil hmem)
  | cons a s ih =>
    by_cases ha : a.toNat < 0x80
    · rw [decodeFrom_cons_short ha h, List.mem_append, List.mem_cons] at hmem
      rcases hmem with hmem | rfl | hmem
      · exact absurd hc (not_isShort_of_mem_decodeFrom_nil hmem)
      · rw [toNat_ofNat_of_short ha, UInt8.ofNat_toNat]
        exact List.mem_cons_self
      · exact List.mem_cons_of_mem a (ih (by simp) hmem)
    · obtain ⟨shown, next, hshown, hnext, hread⟩ := exists_decodeFrom_cons (Nat.le_of_not_lt ha) h
      rw [hread, List.mem_append] at hmem
      rcases hmem with hmem | hmem
      · exact absurd hc (hshown c hmem)
      · exact List.mem_cons_of_mem a (ih hnext hmem)

/-! ## Pieces between slashes -/

theorem slash_mem_ofBytes_iff : '/' ∈ ofBytes s ↔ slash ∈ s := by
  constructor
  · exact fun hmem => mem_of_mem_decodeFrom (by decide) (by simp) hmem
  · intro hmem
    obtain ⟨before, after, rfl⟩ := List.append_of_mem hmem
    rw [ofBytes_append_slash]
    simp

theorem slash_mem_toUtf8_iff : slash ∈ toUtf8 t ↔ '/' ∈ t := by
  rw [← slash_mem_ofBytes_iff, ofBytes_toUtf8]

theorem ofBytes_joinWith (pieces : List RawText) :
    ofBytes (joinWith [slash] pieces) = joinWith ['/'] (pieces.map ofBytes) := by
  induction pieces with
  | nil => rfl
  | cons first rest ih =>
    cases rest with
    | nil => rfl
    | cons second rest =>
      rw [joinWith_cons_cons, List.append_assoc, List.singleton_append, ofBytes_append_slash, ih]
      simp [joinWith_cons_cons]

theorem toUtf8_joinWith (pieces : List Text) :
    toUtf8 (joinWith ['/'] pieces) = joinWith [slash] (pieces.map toUtf8) := by
  induction pieces with
  | nil => rfl
  | cons first rest ih =>
    cases rest with
    | nil => rfl
    | cons second rest =>
      rw [joinWith_cons_cons, toUtf8_append, toUtf8_append, ih]
      rfl

theorem isUtf8_joinWith {pieces : List RawText} (h : ∀ piece ∈ pieces, IsUtf8 piece) :
    IsUtf8 (joinWith [slash] pieces) := by
  have hsame : (pieces.map ofBytes).map toUtf8 = pieces := by
    rw [List.map_map]
    exact (List.map_congr_left h).trans (List.map_id pieces)
  rw [IsUtf8, ofBytes_joinWith, toUtf8_joinWith, hsame]

theorem splitOn_ofBytes (s : RawText) :
    splitOn '/' (ofBytes s) = (splitOn slash s).map ofBytes := by
  have hne : (splitOn slash s).map ofBytes ≠ [] := by simpa using splitOn_ne_nil slash s
  have hpieces : ∀ piece ∈ (splitOn slash s).map ofBytes, '/' ∉ piece := by
    rw [List.forall_mem_map]
    exact fun piece hpiece hmem =>
      sep_notMem_of_mem_splitOn hpiece (slash_mem_ofBytes_iff.mp hmem)
  rw [← splitOn_joinWith hne hpieces, ← ofBytes_joinWith, joinWith_splitOn]

theorem splitOn_toUtf8 (t : Text) : splitOn slash (toUtf8 t) = (splitOn '/' t).map toUtf8 := by
  have hne : (splitOn '/' t).map toUtf8 ≠ [] := by simpa using splitOn_ne_nil '/' t
  have hpieces : ∀ piece ∈ (splitOn '/' t).map toUtf8, slash ∉ piece := by
    rw [List.forall_mem_map]
    exact fun piece hpiece hmem =>
      sep_notMem_of_mem_splitOn hpiece (slash_mem_toUtf8_iff.mp hmem)
  rw [← splitOn_joinWith hne hpieces, ← toUtf8_joinWith, joinWith_splitOn]

/-! ## Texts of short characters -/

theorem utf8EncodeChar_of_short (hb : b.toNat < 0x80) :
    String.utf8EncodeChar (Char.ofNat b.toNat) = [b] := by
  have hcode : (Char.ofNat b.toNat).val.toNat = b.toNat := toNat_ofNat_of_short hb
  rw [String.utf8EncodeChar, hcode, if_pos (by omega), UInt8.ofNat_toNat]

/-- What is shown for a byte that is no character by itself is not a character of one byte. -/
theorem exists_ofBytes_cons (hb : 0x80 ≤ b.toNat) (s : RawText) :
    ∃ c rest, ¬ IsShort c ∧ ofBytes (b :: s) = c :: rest := by
  cases hlead : Begun.ofLead? b with
  | some begun =>
    rw [ofBytes, decodeFrom_of_lead hb hlead]
    exact (Begun.isLong_of_ofLead? hlead).exists_cons s
  | none => exact ⟨replacement, _, not_isShort_replacement, decodeFrom_of_stray hb hlead s⟩

/-- Bytes that are shown by characters of one byte only are those characters. -/
theorem toUtf8_ofBytes_of_short (h : AreShort (ofBytes s)) : IsUtf8 s := by
  induction s with
  | nil => rfl
  | cons b s ih =>
    by_cases hb : b.toNat < 0x80
    · rw [AreShort, ofBytes, decodeFrom_of_lt hb, List.forall_mem_cons] at h
      rw [IsUtf8, ofBytes, decodeFrom_of_lt hb, toUtf8_cons, utf8EncodeChar_of_short hb]
      exact congrArg (b :: ·) (ih h.2)
    · obtain ⟨c, rest, hc, hread⟩ := exists_ofBytes_cons (Nat.le_of_not_lt hb) s
      rw [hread] at h
      exact absurd (h c List.mem_cons_self) hc

theorem ofBytes_eq_iff (ht : AreShort t) : ofBytes s = t ↔ s = toUtf8 t := by
  constructor
  · rintro rfl
    exact (toUtf8_ofBytes_of_short ht).symm
  · rintro rfl
    exact ofBytes_toUtf8 t

/-- A text of ASCII characters is shown for its own bytes only. -/
theorem toUtf8_ofBytes_eq_iff (t : Text) (ht : AreShort t) :
    toUtf8 (ofBytes s) = toUtf8 t ↔ s = toUtf8 t := by
  refine ⟨fun h => (ofBytes_eq_iff ht).mp (toUtf8_injective h), ?_⟩
  rintro rfl
  rw [ofBytes_toUtf8]

/-- What is shown starts with a character of one byte just if the bytes do. -/
theorem head?_ofBytes_eq_iff (hb : b.toNat < 0x80) :
    (ofBytes s).head? = some (Char.ofNat b.toNat) ↔ s.head? = some b := by
  cases s with
  | nil => exact iff_of_false (by simp [ofBytes, decodeFrom]) (by simp)
  | cons a s =>
    by_cases ha : a.toNat < 0x80
    · rw [ofBytes, decodeFrom_of_lt ha, List.head?_cons, List.head?_cons, Option.some.injEq,
        Option.some.injEq]
      constructor
      · intro h
        have hcode := congrArg Char.toNat h
        rw [toNat_ofNat_of_short ha, toNat_ofNat_of_short hb] at hcode
        exact UInt8.toNat_inj.mp hcode
      · rintro rfl
        rfl
    · obtain ⟨c, rest, hc, hread⟩ := exists_ofBytes_cons (Nat.le_of_not_lt ha) s
      rw [hread, List.head?_cons, List.head?_cons, Option.some.injEq, Option.some.injEq]
      refine iff_of_false (fun heq => hc ?_) fun heq => ha (heq ▸ hb)
      rw [heq, IsShort, toNat_ofNat_of_short hb]
      exact hb

theorem ofBytes_eq_nil_iff : ofBytes s = [] ↔ s = [] :=
  ofBytes_eq_iff (by decide)

theorem getLast?_ofBytes_eq_slash_iff :
    (ofBytes s).getLast? = some '/' ↔ s.getLast? = some slash := by
  by_cases hs : s = []
  · subst hs
    exact iff_of_false (by simp [ofBytes, decodeFrom]) (by simp)
  · rw [getLast?_eq_sep_iff (mt ofBytes_eq_nil_iff.mp hs), getLast?_eq_sep_iff hs, splitOn_ofBytes,
      List.getLast?_map, Option.map_eq_some_iff]
    exact ⟨fun ⟨piece, hpiece, hnil⟩ => ofBytes_eq_nil_iff.mp hnil ▸ hpiece, fun h => ⟨[], h, rfl⟩⟩

theorem head?_ofBytes_eq_slash_iff : (ofBytes s).head? = some '/' ↔ s.head? = some slash :=
  head?_ofBytes_eq_iff (b := slash) (by decide)

theorem head?_ofBytes_eq_dot_iff : (ofBytes s).head? = some '.' ↔ s.head? = some dot :=
  head?_ofBytes_eq_iff (b := dot) (by decide)

end Typesweep.Text
