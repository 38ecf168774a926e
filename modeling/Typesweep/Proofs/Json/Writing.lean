import Mathlib.Data.List.TakeWhile
import Typesweep.Json.Printer
import Typesweep.Json.Reader
import Typesweep.Proofs.Json.Fields
import Typesweep.Proofs.Text.Numerals

/-!
# Reading what was written

What the writer makes of a value is one line, and the reader gets the value back from it, whatever
its strings hold. Floats are not written, and the reader keeps numbers of 64 bits only, sees one
value for each key of an object and goes down 127 levels: within these bounds (`Readable`) nothing
is lost.

A number has no end of its own, so what comes after a value must not go on with it (`EndsNumber`).

* `readString_writeString`, `readNumber_ofNat`: strings and numbers.
* `le_of_mem_write`: what is written has no control characters.
* `readValue_write`, `read_write`: values.
-/

namespace Typesweep.Json

variable {c d : Char} {t rest : Text} {j item : Json} {items : List Json}
  {field : Text × Json} {fields before : List (Text × Json)} {n fuel depth : Nat} {first : Bool}

/-! ## Strings -/

theorem hexDigit?_hexChar : ∀ n, n < 16 → Text.hexDigit? (hexChar n) = some n := by
  decide

theorem hex4?_of_lt (h : n < 0x20) :
    hex4? '0' '0' (hexChar (n / 16)) (hexChar (n % 16)) = some n := by
  have hzero : Text.hexDigit? '0' = some 0 := rfl
  have hhigh := hexDigit?_hexChar (n / 16) (by omega)
  have hlow := hexDigit?_hexChar (n % 16) (by omega)
  have hvalue : ((0 * 16 + 0) * 16 + n / 16) * 16 + n % 16 = n := by omega
  simp only [hex4?, hzero, hhigh, hlow, Option.bind_eq_bind, Option.bind_some, Option.pure_def,
    hvalue]

theorem readString_code {a b : Char} (hcode : hex4? '0' '0' a b = some n) (hn : n < 0x20)
    (t : Text) :
    readString ('\\' :: 'u' :: '0' :: '0' :: a :: b :: t) =
      pushChar (Char.ofNat n) (readString t) := by
  have htrailing : isTrailing n = false := by simp [isTrailing]; omega
  have hleading : isLeading n = false := by simp [isLeading]; omega
  rw [readString, hcode]
  simp only [htrailing, hleading, Bool.false_eq_true, if_false]

/-- What a character is written as: a short escape, its code, or itself. -/
theorem escapeChar_cases (c : Char) :
    (∃ e, shortEscape? e = some c ∧ 0x20 ≤ e.toNat ∧ escapeChar c = ['\\', e]) ∨
      (c.toNat < 0x20 ∧ escapeChar c =
        ['\\', 'u', '0', '0', hexChar (c.toNat / 16), hexChar (c.toNat % 16)]) ∨
      (c ≠ '"' ∧ c ≠ '\\' ∧ ¬ c.toNat < 0x20 ∧ escapeChar c = [c]) := by
  unfold escapeChar
  split_ifs with hquote hbackslash hback hform hnewline hreturn htab hcontrol
  · exact .inl ⟨'"', by rw [hquote]; rfl, by decide, rfl⟩
  · exact .inl ⟨'\\', by rw [hbackslash]; rfl, by decide, rfl⟩
  · exact .inl ⟨'b', hback ▸ rfl, by decide, rfl⟩
  · exact .inl ⟨'f', hform ▸ rfl, by decide, rfl⟩
  · exact .inl ⟨'n', hnewline ▸ rfl, by decide, rfl⟩
  · exact .inl ⟨'r', hreturn ▸ rfl, by decide, rfl⟩
  · exact .inl ⟨'t', htab ▸ rfl, by decide, rfl⟩
  · exact .inr (.inl ⟨hcontrol, rfl⟩)
  · exact .inr (.inr ⟨hquote, hbackslash, hcontrol, rfl⟩)

/-- A character comes back from what it is written as. -/
theorem readString_escapeChar (c : Char) (t : Text) :
    readString (escapeChar c ++ t) = pushChar c (readString t) := by
  rcases escapeChar_cases c with
    ⟨e, hshort, -, heq⟩ | ⟨hcontrol, heq⟩ | ⟨hquote, hbackslash, hplain, heq⟩
  · have he : e ≠ 'u' := by
      rintro rfl
      cases hshort
    rw [heq, List.cons_append, List.singleton_append, readString, hshort] <;> simp [he]
  · rw [heq]
    exact (readString_code (hex4?_of_lt hcontrol) hcontrol t).trans (by rw [Char.ofNat_toNat])
  · rw [heq, List.singleton_append, readString, if_neg hplain] <;> simp_all

theorem readString_writeString (t rest : Text) :
    readString (t.flatMap escapeChar ++ '"' :: rest) = .ok (t, rest) := by
  induction t with
  | nil => rfl
  | cons c t ih =>
    rw [List.flatMap_cons, List.append_assoc, readString_escapeChar, ih]
    rfl

/-! ## Control characters -/

theorem le_hexChar : ∀ n, n < 16 → 0x20 ≤ (hexChar n).toNat := by
  decide

theorem le_of_mem_escapeChar (h : d ∈ escapeChar c) : 0x20 ≤ d.toNat := by
  rcases escapeChar_cases c with ⟨e, -, he, heq⟩ | ⟨hcontrol, heq⟩ | ⟨-, -, hplain, heq⟩
  · rw [heq, List.mem_pair] at h
    rcases h with rfl | rfl
    · decide
    · exact he
  · have hhigh := le_hexChar (c.toNat / 16) (by omega)
    have hlow := le_hexChar (c.toNat % 16) (by omega)
    have hall : ∀ d ∈ escapeChar c, 0x20 ≤ d.toNat := by
      rw [heq]
      simp [hhigh, hlow]
    exact hall d h
  · rw [heq, List.mem_singleton] at h
    rw [h]
    omega

theorem le_of_mem_writeString (h : c ∈ writeString t) : 0x20 ≤ c.toNat := by
  rw [writeString, List.cons_append, List.mem_cons, List.mem_append, List.mem_singleton] at h
  rcases h with rfl | h | rfl
  · decide
  · obtain ⟨d, -, hd⟩ := List.mem_flatMap.mp h
    exact le_of_mem_escapeChar hd
  · decide

theorem le_of_mem_ofNat (h : c ∈ Text.ofNat n) : 0x20 ≤ c.toNat := by
  have hdigit := Text.isDigit_of_mem_ofNat h
  rw [Char.isDigit, Bool.and_eq_true, decide_eq_true_iff] at hdigit
  exact Nat.le_trans (by decide) hdigit.1

theorem le_of_mem_literalName (name : String) (hname : name ∈ ["null", "true", "false"])
    (h : c ∈ name.toList) : 0x20 ≤ c.toNat := by
  have hall : (["null", "true", "false"].all fun name =>
      name.toList.all fun c => 0x20 ≤ c.toNat) = true := by decide
  exact of_decide_eq_true (List.all_eq_true.mp (List.all_eq_true.mp hall name hname) c h)

theorem le_of_mem_writeNumber {number : Number} (h : c ∈ number.write) : 0x20 ≤ c.toNat := by
  cases number with
  | natural n => exact le_of_mem_ofNat h
  | negative n =>
    rcases List.mem_cons.mp h with rfl | h
    · decide
    · exact le_of_mem_ofNat h
  | float bits => exact le_of_mem_literalName "null" (by decide) h

/-- The text of a field. -/
def writeField (field : Text × Json) : Text :=
  writeString field.1 ++ ':' :: write field.2

/-- The items after the first one, each with the comma before it. -/
def moreItems (items : List Json) : Text :=
  items.flatMap fun item => ',' :: write item

/-- The fields after the first one, each with the comma before it. -/
def moreFields (fields : List (Text × Json)) : Text :=
  fields.flatMap fun field => ',' :: writeField field

theorem moreItems_cons (item : Json) (items : List Json) :
    moreItems (item :: items) = ',' :: (write item ++ moreItems items) := by
  rw [moreItems, List.flatMap_cons, List.cons_append]
  rfl

theorem moreFields_cons (field : Text × Json) (fields : List (Text × Json)) :
    moreFields (field :: fields) = ',' :: (writeField field ++ moreFields fields) := by
  rw [moreFields, List.flatMap_cons, List.cons_append]
  rfl

theorem writeItems_cons (item : Json) (items : List Json) :
    writeItems (item :: items) = write item ++ moreItems items := by
  induction items generalizing item with
  | nil => exact (List.append_nil _).symm
  | cons next items ih =>
    rw [writeItems, ih, moreItems_cons]
    exact List.cons_ne_nil next items

theorem writeFields_cons (field : Text × Json) (fields : List (Text × Json)) :
    writeFields (field :: fields) = writeField field ++ moreFields fields := by
  induction fields generalizing field with
  | nil => exact (List.append_nil _).symm
  | cons next fields ih =>
    obtain ⟨key, value⟩ := field
    rw [writeFields, ih, moreFields_cons]
    · simp only [writeField, List.append_assoc, List.cons_append]
    · exact List.cons_ne_nil next fields

mutual

/-- What is written has no control characters: it is one line. -/
theorem le_of_mem_write : ∀ (j : Json) (c : Char), c ∈ write j → 0x20 ≤ c.toNat
  | .null, c, h => le_of_mem_literalName "null" (by decide) h
  | .bool true, c, h => le_of_mem_literalName "true" (by decide) h
  | .bool false, c, h => le_of_mem_literalName "false" (by decide) h
  | .number n, c, h => le_of_mem_writeNumber h
  | .string t, c, h => le_of_mem_writeString h
  | .array items, c, h => by
    rw [write, List.cons_append, List.mem_cons, List.mem_append, List.mem_singleton] at h
    rcases h with rfl | h | rfl
    · decide
    · exact le_of_mem_writeItems items c h
    · decide
  | .object fields, c, h => by
    rw [write, List.cons_append, List.mem_cons, List.mem_append, List.mem_singleton] at h
    rcases h with rfl | h | rfl
    · decide
    · exact le_of_mem_writeFields fields c h
    · decide

theorem le_of_mem_writeItems :
    ∀ (items : List Json) (c : Char), c ∈ writeItems items → 0x20 ≤ c.toNat
  | [], c, h => absurd h List.not_mem_nil
  | [item], c, h => le_of_mem_write item c h
  | item :: next :: items, c, h => by
    rw [writeItems, List.mem_append, List.mem_cons] at h
    · rcases h with h | rfl | h
      · exact le_of_mem_write item c h
      · decide
      · exact le_of_mem_writeItems (next :: items) c h
    · exact List.cons_ne_nil next items

theorem le_of_mem_writeFields :
    ∀ (fields : List (Text × Json)) (c : Char), c ∈ writeFields fields → 0x20 ≤ c.toNat
  | [], c, h => absurd h List.not_mem_nil
  | [(key, value)], c, h => by
    rw [writeFields, List.mem_append, List.mem_cons] at h
    rcases h with h | rfl | h
    · exact le_of_mem_writeString h
    · decide
    · exact le_of_mem_write value c h
  | (key, value) :: next :: fields, c, h => by
    rw [writeFields, List.append_assoc, List.mem_append, List.cons_append, List.mem_cons,
      List.mem_append, List.mem_cons] at h
    · rcases h with h | rfl | h | rfl | h
      · exact le_of_mem_writeString h
      · decide
      · exact le_of_mem_write value c h
      · decide
      · exact le_of_mem_writeFields (next :: fields) c h
    · exact List.cons_ne_nil next fields

end

/-! ## Numbers -/

/-- A text that does not go on with a number before it. -/
def EndsNumber (t : Text) : Prop :=
  ∀ c, t.head? = some c → Text.isDigit c = false ∧ c ≠ '.' ∧ c ≠ 'e' ∧ c ≠ 'E'

theorem endsNumber_nil : EndsNumber [] := by
  rintro c ⟨⟩

theorem endsNumber_cons (hc : c ∈ [',', ']', '\x7d', ' ', '\n', '\t', '\r']) (t : Text) :
    EndsNumber (c :: t) := by
  intro d hd
  obtain rfl := Option.some.inj hd
  simp only [List.mem_cons, List.not_mem_nil, or_false] at hc
  rcases hc with rfl | rfl | rfl | rfl | rfl | rfl | rfl <;> decide

theorem EndsNumber.startsWithDigit_eq (h : EndsNumber t) : startsWithDigit t = false := by
  cases t with
  | nil => rfl
  | cons c t => exact (h c rfl).1

/-- Digits only make a number larger. -/
theorem le_ofDigitChars (ds : Text) (value : Nat) : value ≤ Nat.ofDigitChars 10 ds value := by
  induction ds generalizing value with
  | nil => exact Nat.le_refl value
  | cons c ds ih =>
    rw [Nat.ofDigitChars_cons]
    exact Nat.le_trans (by omega) (ih _)

theorem takeDigits_append {ds : Text} {value taken : Nat} (hds : ∀ c ∈ ds, c.isDigit = true)
    (hmax : Nat.ofDigitChars 10 ds value ≤ maxWord) (hrest : startsWithDigit rest = false) :
    takeDigits value taken (ds ++ rest) =
      (Nat.ofDigitChars 10 ds value, taken + ds.length, rest) := by
  induction ds generalizing value taken with
  | nil =>
    cases rest with
    | nil => rfl
    | cons c rest =>
      have hc : Text.digit? c = none :=
        Option.not_isSome_iff_eq_none.mp (Bool.eq_false_iff.mp hrest)
      rw [List.nil_append, takeDigits, hc]
      rfl
  | cons c ds ih =>
    obtain ⟨hc, hds⟩ := List.forall_mem_cons.mp hds
    rw [Nat.ofDigitChars_cons, Nat.mul_comm] at hmax ⊢
    have hsmall : ¬ maxWord < value * 10 + (c.toNat - '0'.toNat) :=
      Nat.not_lt.mpr (Nat.le_trans (le_ofDigitChars ds _) hmax)
    rw [List.cons_append, takeDigits, Text.digit?_of_isDigit hc]
    dsimp only
    rw [if_neg hsmall, ih hds hmax, List.length_cons, Nat.add_assoc, Nat.add_comm 1]

/-- Only zero is written with a leading zero. -/
theorem head?_ofNat_ne (hn : 0 < n) : (Text.ofNat n).head? ≠ some '0' := by
  induction n using Nat.strongRecOn with
  | _ n ih =>
    rcases Nat.lt_or_ge n 10 with hsmall | hlarge
    · rw [Text.ofNat, Nat.toDigits_of_lt_base hsmall]
      simp only [List.head?_cons, ne_eq, Option.some.injEq, Nat.digitChar_eq_zero]
      omega
    · have hlead := ih (n / 10) (by omega) (by omega)
      have hne : Nat.toDigits 10 (n / 10) ≠ [] := Text.ofNat_ne_nil (n / 10)
      rw [Text.ofNat, Nat.toDigits_of_base_le (by decide) hlarge, List.head?_append_of_ne_nil _ hne]
      exact hlead

theorem readNumber_ofNat (negative : Bool) (hn : n ≤ maxWord)
    (hrest : startsWithDigit rest = false) :
    readNumber negative (Text.ofNat n ++ rest) = finishNumber negative n rest := by
  rcases Nat.eq_zero_or_pos n with rfl | hpos
  · show readNumber negative ('0' :: rest) = _
    rw [readNumber, hrest]
    rfl
  · obtain ⟨c, ds, hds⟩ := List.exists_cons_of_ne_nil (Text.ofNat_ne_nil n)
    have hdigits : ∀ d ∈ c :: ds, d.isDigit = true := fun d hd =>
      Text.isDigit_of_mem_ofNat (hds ▸ hd)
    have hvalue : Nat.ofDigitChars 10 ds (c.toNat - '0'.toNat) = n := by
      have hall : Nat.ofDigitChars 10 (Text.ofNat n) 0 = n := Nat.ofDigitChars_ten_toDigits
      rwa [hds, Nat.ofDigitChars_cons, Nat.mul_zero, Nat.zero_add] at hall
    have hzero : c ≠ '0' := by
      rintro rfl
      exact head?_ofNat_ne hpos (by rw [hds]; rfl)
    obtain ⟨hc, hds'⟩ := List.forall_mem_cons.mp hdigits
    rw [hds, List.cons_append, readNumber, Text.digit?_of_isDigit hc]
    · dsimp only
      rw [takeDigits_append hds' (hvalue.symm ▸ hn) hrest, hvalue]
      dsimp only
      rw [hrest, if_neg Bool.false_ne_true]
    · exact hzero

theorem finishNumber_of_endsNumber (negative : Bool) (n : Nat) (h : EndsNumber rest) :
    finishNumber negative n rest = .ok (finishNumber.whole negative n, rest) := by
  cases rest with
  | nil => rfl
  | cons c rest =>
    obtain ⟨-, hpoint, he, hE⟩ := h c rfl
    rw [finishNumber, if_neg hpoint, if_neg (not_or.mpr ⟨he, hE⟩)]

/-! ## Values -/

/-- A number that the reader keeps as it is. -/
def Number.IsExact : Number → Prop
  | .natural n => n ≤ maxWord
  | .negative n => 0 < n ∧ n ≤ UInt64.size / 2
  | .float _ => False

/-- A value that the reader gets back when it may go down `depth` levels. -/
inductive Readable : Nat → Json → Prop
  | null {depth : Nat} : Readable depth .null
  | bool {depth : Nat} (value : Bool) : Readable depth (.bool value)
  | number {depth : Nat} {value : Number} (h : value.IsExact) : Readable depth (.number value)
  | string {depth : Nat} (value : Text) : Readable depth (.string value)
  | array {depth : Nat} {items : List Json} (h : ∀ item ∈ items, Readable depth item) :
    Readable (depth + 1) (.array items)
  | object {depth : Nat} {fields : List (Text × Json)} (hkeys : KeysDistinct fields)
    (h : ∀ field ∈ fields, Readable depth field.2) : Readable (depth + 1) (.object fields)

/-- The reader gets the value back, and stops behind it. -/
def ReadsBack (depth : Nat) (j : Json) : Prop :=
  ∀ fuel rest, 2 * (write j).length ≤ fuel → EndsNumber rest →
    readValue fuel depth (write j ++ rest) = .ok (j, rest)

theorem skipSpace_cons (hc : isSpace c = false) (t : Text) : skipSpace (c :: t) = c :: t :=
  List.dropWhile_cons_of_neg (Bool.eq_false_iff.mp hc)

theorem isSpace_of_isDigit (h : c.isDigit = true) : isSpace c = false := by
  by_contra hspace
  simp only [isSpace, Bool.not_eq_false, Bool.or_eq_true, decide_eq_true_eq] at hspace
  rcases hspace with ((rfl | rfl) | rfl) | rfl <;> cases h

/-- A value starts with a character of its own. -/
theorem exists_write_cons (j : Json) :
    ∃ c t, write j = c :: t ∧ isSpace c = false ∧ c ≠ ']' := by
  cases j with
  | null => exact ⟨'n', _, rfl, rfl, by decide⟩
  | bool value =>
    cases value with
    | true => exact ⟨'t', _, rfl, rfl, by decide⟩
    | false => exact ⟨'f', _, rfl, rfl, by decide⟩
  | number value =>
    cases value with
    | natural n =>
      obtain ⟨c, t, ht⟩ := List.exists_cons_of_ne_nil (Text.ofNat_ne_nil n)
      have hc := Text.isDigit_of_mem_ofNat (ht ▸ List.mem_cons_self : c ∈ Text.ofNat n)
      refine ⟨c, t, ht, isSpace_of_isDigit hc, ?_⟩
      rintro rfl
      cases hc
    | negative n => exact ⟨'-', _, rfl, rfl, by decide⟩
    | float bits => exact ⟨'n', _, rfl, rfl, by decide⟩
  | string value => exact ⟨'"', _, rfl, rfl, by decide⟩
  | array items => exact ⟨'[', _, rfl, rfl, by decide⟩
  | object fields => exact ⟨'\x7b', _, rfl, rfl, by decide⟩

theorem length_write_pos (j : Json) : 0 < (write j).length := by
  obtain ⟨c, t, ht, -⟩ := exists_write_cons j
  rw [ht]
  exact Nat.succ_pos _

/-- There is fuel for a first step. -/
theorem exists_fuel (hfuel : 2 * (write j).length ≤ fuel) : ∃ less, fuel = less + 1 :=
  Nat.exists_eq_succ_of_ne_zero (by have := length_write_pos j; omega)

theorem readValue_quote {value : Text} (h : readString t = .ok (value, rest)) :
    readValue (fuel + 1) depth ('"' :: t) = .ok (.string value, rest) := by
  show (readString t).map _ = _
  rw [h]
  rfl

theorem readValue_minus {value : Number} (h : readNumber true t = .ok (value, rest)) :
    readValue (fuel + 1) depth ('-' :: t) = .ok (.number value, rest) := by
  show (readNumber true t).map _ = _
  rw [h]
  rfl

theorem readValue_bracket (h : readItems fuel depth true t = .ok (items, rest)) :
    readValue (fuel + 1) (depth + 1) ('[' :: t) = .ok (.array items, rest) := by
  show (readItems fuel depth true t).map _ = _
  rw [h]
  rfl

theorem readValue_brace (h : readFields fuel depth true [] t = .ok (fields, rest)) :
    readValue (fuel + 1) (depth + 1) ('\x7b' :: t) = .ok (.object fields, rest) := by
  show (readFields fuel depth true [] t).map _ = _
  rw [h]
  rfl

theorem readValue_of_isDigit {value : Number} (hc : c.isDigit = true)
    (h : readNumber false (c :: t) = .ok (value, rest)) :
    readValue (fuel + 1) depth (c :: t) = .ok (.number value, rest) := by
  have hdigit : Text.isDigit c = true := by
    rw [Text.isDigit, Text.digit?_of_isDigit hc]
    rfl
  rw [readValue, skipSpace_cons (isSpace_of_isDigit hc)]
  split
  case h_9 heq =>
    obtain ⟨rfl, rfl⟩ := List.cons.inj heq
    rw [if_pos hdigit, h]
    rfl
  case h_1 heq => cases heq
  all_goals
    next heq =>
      obtain ⟨rfl, -⟩ := List.cons.inj heq
      cases hc

theorem readsBack_number {value : Number} (h : value.IsExact) :
    ReadsBack depth (.number value) := by
  intro fuel rest hfuel hrest
  obtain ⟨fuel, rfl⟩ := exists_fuel hfuel
  cases value with
  | natural n =>
    obtain ⟨c, t, ht⟩ := List.exists_cons_of_ne_nil (Text.ofNat_ne_nil n)
    have hc := Text.isDigit_of_mem_ofNat (ht ▸ List.mem_cons_self : c ∈ Text.ofNat n)
    have hread := readNumber_ofNat false h hrest.startsWithDigit_eq
    rw [finishNumber_of_endsNumber false n hrest, ht] at hread
    show readValue (fuel + 1) depth (Text.ofNat n ++ rest) = _
    rw [ht]
    exact readValue_of_isDigit hc hread
  | negative n =>
    have hmax : n ≤ maxWord := Nat.le_trans h.2 (by decide)
    have hread := readNumber_ofNat true hmax hrest.startsWithDigit_eq
    have hwhole : finishNumber.whole true n = .negative n := if_pos h
    rw [finishNumber_of_endsNumber true n hrest, hwhole] at hread
    exact readValue_minus hread
  | float bits => exact absurd h id

theorem readsBack_string (value : Text) : ReadsBack depth (.string value) := by
  intro fuel rest hfuel _
  obtain ⟨fuel, rfl⟩ := exists_fuel hfuel
  have hwrite : write (.string value) ++ rest =
      '"' :: (value.flatMap escapeChar ++ '"' :: rest) := by
    rw [write, writeString, List.append_assoc, List.cons_append, List.singleton_append]
  rw [hwrite]
  exact readValue_quote (readString_writeString value rest)

/-! ### Lists -/

theorem endsNumber_moreItems (items : List Json) (rest : Text) :
    EndsNumber (moreItems items ++ ']' :: rest) := by
  cases items with
  | nil => exact endsNumber_cons (by decide) rest
  | cons item items => exact endsNumber_cons (by decide) _

/-- One item of a list. -/
theorem readItems_step (hnext : nextItem first t = .ok (.item (write item ++ rest)))
    (hitem : ReadsBack depth item) (hfuel : 2 * (write item).length ≤ fuel)
    (hrest : EndsNumber rest) : readItems (fuel + 1) depth first t =
      (readItems fuel depth false rest).map fun (items, rest) => (item :: items, rest) := by
  rw [readItems, hnext]
  dsimp only
  rw [hitem fuel rest hfuel hrest]

theorem nextItem_write (item : Json) (rest : Text) :
    nextItem true (write item ++ rest) = .ok (.item (write item ++ rest)) ∧
      nextItem false (',' :: (write item ++ rest)) = .ok (.item (write item ++ rest)) := by
  obtain ⟨c, t, ht, hspace, hc⟩ := exists_write_cons item
  have hskip : skipSpace (',' :: c :: (t ++ rest)) = ',' :: c :: (t ++ rest) := skipSpace_cons rfl _
  rw [ht, List.cons_append, nextItem, nextItem, skipSpace_cons hspace, hskip]
  simp [hc, skipSpace_cons hspace]

theorem readItems_more (h : ∀ item ∈ items, ReadsBack depth item)
    (hfuel : 2 * (moreItems items).length + 1 ≤ fuel) :
    readItems fuel depth false (moreItems items ++ ']' :: rest) = .ok (items, rest) := by
  obtain ⟨fuel, rfl⟩ : ∃ less, fuel = less + 1 := Nat.exists_eq_succ_of_ne_zero (by omega)
  induction items generalizing fuel with
  | nil => rfl
  | cons item items ih =>
    obtain ⟨hitem, hitems⟩ := List.forall_mem_cons.mp h
    rw [moreItems_cons, List.length_cons, List.length_append] at hfuel
    obtain ⟨less, rfl⟩ : ∃ less, fuel = less + 1 := Nat.exists_eq_succ_of_ne_zero (by omega)
    rw [moreItems_cons, List.cons_append, List.append_assoc,
      readItems_step (nextItem_write item _).2 hitem (by omega) (endsNumber_moreItems items rest),
      ih hitems less (by omega)]
    rfl

theorem readsBack_array (h : ∀ item ∈ items, ReadsBack depth item) :
    ReadsBack (depth + 1) (.array items) := by
  intro fuel rest hfuel _
  obtain ⟨fuel, rfl⟩ := exists_fuel hfuel
  have hlength : (write (.array items)).length = (writeItems items).length + 2 := by
    rw [write, List.length_append, List.length_cons]
    rfl
  have hwrite : write (.array items) ++ rest = '[' :: (writeItems items ++ ']' :: rest) := by
    rw [write, List.append_assoc, List.cons_append, List.singleton_append]
  have hread : readItems fuel depth true (writeItems items ++ ']' :: rest) = .ok (items, rest) := by
    obtain ⟨fuel, rfl⟩ : ∃ less, fuel = less + 1 := Nat.exists_eq_succ_of_ne_zero (by omega)
    cases items with
    | nil => rfl
    | cons item items =>
      obtain ⟨hitem, hitems⟩ := List.forall_mem_cons.mp h
      have hpos := length_write_pos item
      rw [writeItems_cons, List.length_append] at hlength
      rw [writeItems_cons, List.append_assoc,
        readItems_step (nextItem_write item _).1 hitem (by omega)
          (endsNumber_moreItems items rest), readItems_more hitems (by omega)]
      rfl
  rw [hwrite]
  exact readValue_bracket hread

/-! ### Objects -/

theorem setField_of_notMem {key : Text} {value : Json} (h : key ∉ before.map Prod.fst) :
    setField key value before = before ++ [(key, value)] := by
  induction before with
  | nil => rfl
  | cons field before ih =>
    rw [List.map_cons, List.mem_cons, not_or] at h
    rw [setField, if_neg (Ne.symm h.1), ih h.2, List.cons_append]

theorem endsNumber_moreFields (fields : List (Text × Json)) (rest : Text) :
    EndsNumber (moreFields fields ++ '\x7d' :: rest) := by
  cases fields with
  | nil => exact endsNumber_cons (by decide) rest
  | cons field fields => exact endsNumber_cons (by decide) _

theorem writeField_append (field : Text × Json) (rest : Text) :
    writeField field ++ rest =
      '"' :: (field.1.flatMap escapeChar ++ '"' :: ':' :: (write field.2 ++ rest)) := by
  simp only [writeField, writeString, List.append_assoc, List.cons_append, List.nil_append]

theorem nextKey_writeField (field : Text × Json) (rest : Text) :
    nextKey true (writeField field ++ rest) = .ok (.item (writeField field ++ rest)) ∧
      nextKey false (',' :: (writeField field ++ rest)) =
        .ok (.item (writeField field ++ rest)) := by
  rw [writeField_append]
  exact ⟨rfl, rfl⟩

/-- One field of an object. -/
theorem readFields_step (hnext : nextKey first t = .ok (.item (writeField field ++ rest)))
    (hvalue : ReadsBack depth field.2) (hfuel : 2 * (write field.2).length ≤ fuel)
    (hrest : EndsNumber rest) (hkey : field.1 ∉ before.map Prod.fst) :
    readFields (fuel + 1) depth first before t =
      readFields fuel depth false (before ++ [field]) rest := by
  have hcolon : readColon (':' :: (write field.2 ++ rest)) = .ok (write field.2 ++ rest) := rfl
  rw [readFields, hnext, writeField_append]
  dsimp only
  rw [List.drop_one, List.tail_cons, readString_writeString]
  dsimp only
  rw [hcolon]
  dsimp only
  rw [hvalue fuel rest hfuel hrest]
  dsimp only
  rw [setField_of_notMem hkey]

theorem length_writeField (field : Text × Json) :
    (write field.2).length + 3 ≤ (writeField field).length := by
  simp only [writeField, writeString, List.length_append, List.length_cons, List.length_nil]
  omega

theorem readFields_more (hkeys : KeysDistinct (before ++ fields))
    (h : ∀ field ∈ fields, ReadsBack depth field.2)
    (hfuel : 2 * (moreFields fields).length + 1 ≤ fuel) :
    readFields fuel depth false before (moreFields fields ++ '\x7d' :: rest) =
      .ok (before ++ fields, rest) := by
  obtain ⟨fuel, rfl⟩ : ∃ less, fuel = less + 1 := Nat.exists_eq_succ_of_ne_zero (by omega)
  induction fields generalizing fuel before with
  | nil =>
    rw [List.append_nil]
    rfl
  | cons field fields ih =>
    obtain ⟨hfield, hfields⟩ := List.forall_mem_cons.mp h
    have hkey : field.1 ∉ before.map Prod.fst := by
      rw [KeysDistinct, List.map_append, List.map_cons, List.nodup_append] at hkeys
      exact fun hmem => hkeys.2.2 _ hmem _ List.mem_cons_self rfl
    have hlength := length_writeField field
    rw [moreFields_cons, List.length_cons, List.length_append] at hfuel
    obtain ⟨less, rfl⟩ : ∃ less, fuel = less + 1 := Nat.exists_eq_succ_of_ne_zero (by omega)
    have happend : before ++ field :: fields = before ++ [field] ++ fields :=
      List.append_cons before field fields
    rw [happend] at hkeys ⊢
    rw [moreFields_cons, List.cons_append, List.append_assoc,
      readFields_step (nextKey_writeField field _).2 hfield (by omega)
        (endsNumber_moreFields fields rest) hkey, ih hkeys hfields less (by omega)]

theorem readsBack_object (hkeys : KeysDistinct fields)
    (h : ∀ field ∈ fields, ReadsBack depth field.2) : ReadsBack (depth + 1) (.object fields) := by
  intro fuel rest hfuel _
  obtain ⟨fuel, rfl⟩ := exists_fuel hfuel
  have hlength : (write (.object fields)).length = (writeFields fields).length + 2 := by
    rw [write, List.length_append, List.length_cons]
    rfl
  have hwrite : write (.object fields) ++ rest =
      '\x7b' :: (writeFields fields ++ '\x7d' :: rest) := by
    rw [write, List.append_assoc, List.cons_append, List.singleton_append]
  have hread : readFields fuel depth true [] (writeFields fields ++ '\x7d' :: rest) =
      .ok (fields, rest) := by
    obtain ⟨fuel, rfl⟩ : ∃ less, fuel = less + 1 := Nat.exists_eq_succ_of_ne_zero (by omega)
    cases fields with
    | nil => rfl
    | cons field fields =>
      obtain ⟨hfield, hfields⟩ := List.forall_mem_cons.mp h
      have hpos := length_writeField field
      rw [writeFields_cons, List.length_append] at hlength
      rw [writeFields_cons, List.append_assoc,
        readFields_step (nextKey_writeField field _).1 hfield (by omega)
          (endsNumber_moreFields fields rest) List.not_mem_nil]
      exact readFields_more hkeys hfields (by omega)
  rw [hwrite]
  exact readValue_brace hread

/-! ### Any value -/

/-- The reader gets back what was written, and stops behind it. -/
theorem readValue_write (h : Readable depth j) : ReadsBack depth j := by
  induction h with
  | null =>
    intro fuel rest hfuel _
    obtain ⟨fuel, rfl⟩ := exists_fuel hfuel
    rfl
  | bool value =>
    intro fuel rest hfuel _
    obtain ⟨fuel, rfl⟩ := exists_fuel hfuel
    cases value <;> rfl
  | number h => exact readsBack_number h
  | string value => exact readsBack_string value
  | array _ ih => exact readsBack_array ih
  | object hkeys _ ih => exact readsBack_object hkeys ih

/-- A whole text is read back, with white space behind it. -/
theorem read_write (h : Readable maxDepth j) (hrest : ∀ c ∈ rest, isSpace c = true) :
    read (write j ++ rest) = .ok j := by
  have hends : EndsNumber rest := by
    cases rest with
    | nil => exact endsNumber_nil
    | cons c rest =>
      have hc := hrest c List.mem_cons_self
      simp only [isSpace, Bool.or_eq_true, decide_eq_true_eq] at hc
      exact endsNumber_cons (by simp only [List.mem_cons]; tauto) rest
  have hend : skipSpace rest = [] := List.dropWhile_eq_nil_iff.mpr hrest
  have hvalue := readValue_write h (fuelFor (write j ++ rest)) rest
    (by rw [fuelFor, List.length_append]; omega) hends
  rw [read, hvalue]
  dsimp only
  rw [endText, hend]
  rfl

end Typesweep.Json
