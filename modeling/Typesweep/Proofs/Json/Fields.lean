import Mathlib.Data.List.Nodup
import Typesweep.Json.Shape

/-!
# Fields of objects

The fields of an object are a map: no key is repeated (`KeysDistinct`), which `setField` keeps and
the reader grants, and setting fields overrides what was there.

* `field?_setField`, `field?_setFields`: what a key has after fields were set.
* `readObject_keysDistinct`: an object that was read repeats no key.
-/

namespace Typesweep.Json

variable {fields later : List (Text × Json)} {key k : Text} {value : Json}

/-- No key is repeated. -/
def KeysDistinct (fields : List (Text × Json)) : Prop :=
  (fields.map Prod.fst).Nodup

theorem keysDistinct_nil : KeysDistinct [] :=
  List.nodup_nil

theorem keysDistinct_cons {field : Text × Json} :
    KeysDistinct (field :: fields) ↔ field.1 ∉ fields.map Prod.fst ∧ KeysDistinct fields :=
  List.nodup_cons

/-! ## Setting fields -/

theorem mem_keys_setField (h : k ∈ (setField key value fields).map Prod.fst) :
    k = key ∨ k ∈ fields.map Prod.fst := by
  induction fields with
  | nil => exact .inl (List.mem_singleton.mp h)
  | cons field rest ih =>
    rw [setField] at h
    split at h
    · rcases List.mem_cons.mp h with h | h
      · exact .inl h
      · exact .inr (List.mem_cons_of_mem _ h)
    · rcases List.mem_cons.mp h with h | h
      · exact .inr (h ▸ List.mem_cons_self)
      · exact (ih h).imp_right (List.mem_cons_of_mem _)

theorem KeysDistinct.setField (h : KeysDistinct fields) (key : Text) (value : Json) :
    KeysDistinct (setField key value fields) := by
  induction fields with
  | nil => exact List.nodup_singleton key
  | cons field rest ih =>
    obtain ⟨hfield, hrest⟩ := keysDistinct_cons.mp h
    rw [Json.setField]
    split
    · next heq => exact keysDistinct_cons.mpr ⟨heq ▸ hfield, hrest⟩
    · next hne =>
      refine keysDistinct_cons.mpr ⟨fun hmem => ?_, ih hrest⟩
      rcases mem_keys_setField hmem with heq | hmem
      · exact hne heq
      · exact hfield hmem

theorem KeysDistinct.setFields (h : KeysDistinct fields) (later : List (Text × Json)) :
    KeysDistinct (setFields fields later) := by
  induction later generalizing fields with
  | nil => exact h
  | cons field later ih => exact ih (h.setField field.1 field.2)

theorem field?_cons (key : Text) (field : Text × Json) (rest : List (Text × Json)) :
    field? key (field :: rest) = if field.1 = key then some field.2 else field? key rest :=
  rfl

theorem field?_eq_none (h : key ∉ fields.map Prod.fst) : field? key fields = none := by
  induction fields with
  | nil => rfl
  | cons field rest ih =>
    rw [List.map_cons, List.mem_cons, not_or] at h
    rw [field?_cons, if_neg fun heq => h.1 heq.symm, ih h.2]

theorem field?_setField (k key : Text) (value : Json) (fields : List (Text × Json)) :
    field? k (setField key value fields) = if key = k then some value else field? k fields := by
  induction fields with
  | nil => rfl
  | cons field rest ih =>
    rw [setField]
    split
    · next heq =>
      rw [field?_cons, field?_cons, heq]
      split <;> rfl
    · next hne =>
      rw [field?_cons, field?_cons, ih]
      by_cases hk : field.1 = k
      · rw [if_pos hk, if_pos hk, if_neg fun heq => hne (hk.trans heq.symm)]
      · rw [if_neg hk, if_neg hk]

/-- The fields that are set win. -/
theorem field?_setFields (h : KeysDistinct later) (k : Text) (fields : List (Text × Json)) :
    field? k (setFields fields later) = (field? k later).or (field? k fields) := by
  induction later generalizing fields with
  | nil => rfl
  | cons field later ih =>
    obtain ⟨hfield, hlater⟩ := keysDistinct_cons.mp h
    show field? k (setFields (setField field.1 field.2 fields) later) = _
    rw [ih hlater, field?_setField, field?_cons]
    by_cases hk : field.1 = k
    · -- The key is set once, so none of the later fields has it.
      subst hk
      rw [field?_eq_none hfield, if_pos rfl, if_pos rfl]
      rfl
    · rw [if_neg hk, if_neg hk]

/-! ## Reading objects -/

theorem readFields_keysDistinct {fuel depth : Nat} {first : Bool} {t rest : Text}
    {result : List (Text × Json)} (h : KeysDistinct fields)
    (hread : readFields fuel depth first fields t = .ok (result, rest)) : KeysDistinct result := by
  induction fuel generalizing first fields t with
  | zero => cases hread
  | succ fuel ih =>
    rw [readFields] at hread
    split at hread
    · cases hread
    · cases hread
      exact h
    · split at hread
      · cases hread
      · split at hread
        · cases hread
        · split at hread
          · cases hread
          · exact ih (h.setField _ _) hread

theorem mismatch_ne_ok {α : Type} {expected : String} {t : Text} {result : α} :
    mismatch expected t ≠ .ok result := by
  intro h
  unfold mismatch mismatch.literal mismatch.scalar at h
  repeat' split at h
  all_goals cases h

theorem readObject_keysDistinct {depth : Nat} {t rest : Text} {result : List (Text × Json)}
    (hread : readObject depth t = .ok (result, rest)) : KeysDistinct result := by
  rw [readObject] at hread
  split at hread
  · cases hread
  · exact readFields_keysDistinct keysDistinct_nil hread
  · exact absurd hread mismatch_ne_ok

end Typesweep.Json
