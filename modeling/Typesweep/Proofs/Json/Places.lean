import Mathlib.Data.List.Infix
import Typesweep.Config.Declaration

/-!
# Where readers stop

A reader goes over its text from left to right. What it leaves to be read is an end of the text, and
so is what was unread where it noticed a fault. So a fault has a place in the text, and its line is
the line of that place.

* `StaysIn`: an answer that leaves an end of the text.
* `readsStayIn`, `skipsStayIn`: values, by one step for each kind of reader.
* `Declaration.read_staysIn`: whole declarations.
* `Fault.line_append`: the line of a fault.
-/

namespace Typesweep.Json

variable {α β : Type} {t t' r : Text} {rest : α → Text} {rest' : β → Text}

/-- The answer of a reader leaves an end of the text, `rest` of what was read or the unread text of
a fault. -/
def StaysIn (t : Text) (rest : α → Text) : Except Fault α → Prop
  | .ok a => rest a <:+ t
  | .error f => f.rest <:+ t

namespace StaysIn

theorem faultBefore (cause : Cause) (h : r <:+ t) : StaysIn t rest (faultBefore cause r) :=
  h

theorem faultAt (cause : Cause) (h : r <:+ t) : StaysIn t rest (faultAt cause r) :=
  (List.drop_suffix 1 r).trans h

theorem ok {answer : Except Fault α} {a : α} (h : StaysIn t rest answer) (heq : answer = .ok a) :
    rest a <:+ t := by
  subst heq
  exact h

theorem error {answer : Except Fault α} {f : Fault} (h : StaysIn t rest answer)
    (heq : answer = .error f) : f.rest <:+ t := by
  subst heq
  exact h

theorem mono {answer : Except Fault α} (h : StaysIn t rest answer) (ht : t <:+ t') :
    StaysIn t' rest answer := by
  cases answer with
  | ok a => exact List.IsSuffix.trans h ht
  | error f => exact List.IsSuffix.trans h ht

theorem map {answer : Except Fault α} {g : α → β} (h : StaysIn t rest answer)
    (hg : ∀ a, rest' (g a) = rest a) : StaysIn t rest' (answer.map g) := by
  cases answer with
  | ok a =>
    show rest' (g a) <:+ t
    rw [hg]
    exact h
  | error f => exact h

end StaysIn

theorem skipSpace_suffix (t : Text) : skipSpace t <:+ t :=
  List.dropWhile_suffix isSpace

theorem suffix_of_skipSpace_eq {c : Char} (h : skipSpace t = c :: r) : r <:+ t :=
  (List.suffix_cons c r).trans (h ▸ skipSpace_suffix t)

/-! ## Scalars -/

theorem readIdent_staysIn (ident t : Text) : StaysIn t id (readIdent ident t) := by
  fun_induction readIdent ident t with
  | case1 rest => exact List.suffix_rfl
  | case2 => exact .faultBefore _ List.suffix_rfl
  | case3 ident d rest ih => exact ih.mono (List.suffix_cons d rest)
  | case4 c ident d rest => exact .faultBefore _ (List.suffix_cons d rest)

theorem dropBytes_suffix (count : Nat) (t : Text) : dropBytes count t <:+ t := by
  fun_induction dropBytes count t with
  | case1 t => exact List.suffix_rfl
  | case2 => exact List.suffix_rfl
  | case3 count c rest ih => exact ih.trans (List.suffix_cons c rest)

theorem hexFault_staysIn (t : Text) : StaysIn t rest (hexFault t) := by
  rw [hexFault]
  split
  · exact .faultBefore _ List.nil_suffix
  · exact .faultBefore _ (dropBytes_suffix 4 t)

theorem pairFault_staysIn (t : Text) : StaysIn t rest (pairFault t) := by
  rw [pairFault.eq_def]
  split
  · exact .faultBefore _ List.suffix_rfl
  · exact .faultBefore _ List.nil_suffix
  · next later => exact (hexFault_staysIn later).mono (List.suffix_append ['\\', 'u'] later)
  · next c later _ => exact .faultBefore _ (List.suffix_append ['\\', c] later)
  · next c later _ _ _ => exact .faultBefore _ (List.suffix_cons c later)

theorem pushChar_staysIn {c : Char} {answer : Reading Text} (h : StaysIn t Prod.snd answer) :
    StaysIn t Prod.snd (pushChar c answer) :=
  h.map fun _ => rfl

theorem readString_staysIn (t : Text) : StaysIn t Prod.snd (readString t) := by
  fun_induction readString t with
  | case1 => exact .faultBefore _ List.suffix_rfl
  | case2 rest => exact List.suffix_cons _ rest
  | case3 => exact (hexFault_staysIn _).mono (List.suffix_append [_, _] _)
  | case4 => exact .faultBefore _ (List.suffix_append [_, _, _, _, _, _] _)
  | case5 => exact (hexFault_staysIn _).mono (List.suffix_append [_, _, _, _, _, _, _, _] _)
  | case6 a b c d n hn htrailing hleading e f g h later m hm htrailing' ih =>
    exact pushChar_staysIn (ih.mono (List.suffix_append [_, _, _, _, _, _, _, _, _, _, _, _] _))
  | case7 =>
    exact .faultBefore _ (List.suffix_append [_, _, _, _, _, _, _, _, _, _, _, _] _)
  | case8 => exact (pairFault_staysIn _).mono (List.suffix_append [_, _, _, _, _, _] _)
  | case9 a b c d rest n hn htrailing hleading ih =>
    exact pushChar_staysIn (ih.mono (List.suffix_append [_, _, _, _, _, _] _))
  | case10 => exact (hexFault_staysIn _).mono (List.suffix_append [_, _] _)
  | case11 c rest hne hne' e he ih =>
    exact pushChar_staysIn (ih.mono (List.suffix_append [_, _] _))
  | case12 => exact .faultBefore _ (List.suffix_append [_, _] _)
  | case13 => exact .faultBefore _ List.nil_suffix
  | case14 => exact .faultBefore _ (List.suffix_cons _ _)
  | case15 c rest _ _ _ _ _ _ ih => exact pushChar_staysIn (ih.mono (List.suffix_cons c rest))

theorem skipString_staysIn (t : Text) : StaysIn t id (skipString t) := by
  fun_induction skipString t with
  | case1 => exact .faultBefore _ List.suffix_rfl
  | case2 rest => exact List.suffix_cons _ rest
  | case3 => exact (hexFault_staysIn _).mono (List.suffix_append [_, _] _)
  | case4 a b c d rest n hn ih => exact ih.mono (List.suffix_append [_, _, _, _, _, _] _)
  | case5 => exact (hexFault_staysIn _).mono (List.suffix_append [_, _] _)
  | case6 c rest hne hne' e he ih => exact ih.mono (List.suffix_append [_, _] _)
  | case7 => exact .faultBefore _ (List.suffix_append [_, _] _)
  | case8 => exact .faultBefore _ List.nil_suffix
  | case9 => exact .faultBefore _ List.suffix_rfl
  | case10 c rest _ _ _ _ _ _ ih => exact ih.mono (List.suffix_cons c rest)

/-! ## Numbers -/

theorem takeDigits_suffix (value taken : Nat) (t : Text) :
    (takeDigits value taken t).2.2 <:+ t := by
  fun_induction takeDigits value taken t with
  | case1 => exact List.suffix_rfl
  | case2 => exact List.suffix_rfl
  | case3 => exact List.suffix_rfl
  | case4 value taken c rest d hd hfits ih => exact ih.trans (List.suffix_cons c rest)

theorem floatNumber_staysIn (negative : Bool) (significand : Nat) (exponent : Int) (t : Text) :
    StaysIn t Prod.snd (floatNumber negative significand exponent t) := by
  rw [floatNumber]
  split
  · exact .faultBefore _ List.suffix_rfl
  · exact List.suffix_rfl

theorem readExponent_staysIn (negative : Bool) (significand : Nat) (start : Int) (t : Text) :
    StaysIn t Prod.snd (readExponent negative significand start t) := by
  unfold readExponent
  split
  next down later heq =>
  have hlater : later <:+ t := by
    split at heq <;> obtain ⟨-, rfl⟩ := Prod.mk.inj heq
    · exact List.suffix_cons _ _
    · exact List.suffix_cons _ _
    · exact List.suffix_rfl
  refine StaysIn.mono ?_ hlater
  split
  · exact .faultBefore _ List.suffix_rfl
  · next _ c rest =>
    have hafter : (c :: rest).dropWhile Text.isDigit <:+ c :: rest := List.dropWhile_suffix _
    dsimp only [countDigits]
    split
    · split
      · exact .faultBefore _ (List.suffix_cons c rest)
      · split
        · split
          · exact .faultBefore _ hafter
          · exact hafter
        · exact (floatNumber_staysIn _ _ _ _).mono hafter
    · exact .faultBefore _ (List.suffix_cons c rest)

theorem finishFloat_staysIn (negative : Bool) (significand : Nat) (exponent : Int) (t : Text) :
    StaysIn t Prod.snd (finishFloat negative significand exponent t) := by
  unfold finishFloat
  split
  · next c rest =>
    split
    · exact (readExponent_staysIn _ _ _ rest).mono (List.suffix_cons c rest)
    · exact floatNumber_staysIn _ _ _ _
  · exact floatNumber_staysIn _ _ _ _

theorem readFraction_staysIn (negative : Bool) (significand : Nat) (exponent : Int) (t : Text) :
    StaysIn t Prod.snd (readFraction negative significand exponent t) := by
  have hrest := takeDigits_suffix significand 0 t
  unfold readFraction
  dsimp only
  split
  · exact (finishFloat_staysIn _ _ _ _).mono ((List.dropWhile_suffix _).trans hrest)
  · split
    · split
      · exact .faultAt _ List.nil_suffix
      · exact .faultAt _ hrest
    · exact (finishFloat_staysIn _ _ _ _).mono hrest

theorem finishNumber_staysIn (negative : Bool) (value : Nat) (t : Text) :
    StaysIn t Prod.snd (finishNumber negative value t) := by
  unfold finishNumber
  split
  · next c rest =>
    split
    · exact (readFraction_staysIn _ _ _ rest).mono (List.suffix_cons c rest)
    · split
      · exact (readExponent_staysIn _ _ _ rest).mono (List.suffix_cons c rest)
      · exact List.suffix_rfl
  · exact List.suffix_rfl

theorem readNumber_staysIn (negative : Bool) (t : Text) :
    StaysIn t Prod.snd (readNumber negative t) := by
  unfold readNumber
  split
  · exact .faultBefore _ List.suffix_rfl
  · next rest =>
    split
    · exact .faultAt _ (List.suffix_cons _ rest)
    · exact (finishNumber_staysIn _ _ rest).mono (List.suffix_cons _ rest)
  · next c rest _ =>
    refine StaysIn.mono ?_ (List.suffix_cons c rest)
    split
    · exact .faultBefore _ List.suffix_rfl
    · next d _ =>
      have hlater := takeDigits_suffix d 0 rest
      have hafter := (List.dropWhile_suffix Text.isDigit).trans hlater
      dsimp only [countDigits]
      split
      · split
        · next fraction heq =>
          exact (readFraction_staysIn _ _ _ fraction).mono
            ((List.suffix_cons _ fraction).trans (heq ▸ hafter))
        · exact (finishFloat_staysIn _ _ _ _).mono hafter
      · exact (finishNumber_staysIn _ _ _).mono hlater

theorem skipExponent_staysIn (t : Text) : StaysIn t id (skipExponent t) := by
  have hdigits : ∀ later, later <:+ t → StaysIn t id
      (if startsWithDigit later then Except.ok (later.dropWhile Text.isDigit)
        else faultAt .invalidNumber later) := by
    intro later hlater
    split
    · exact (List.dropWhile_suffix _).trans hlater
    · exact .faultAt _ hlater
  unfold skipExponent
  dsimp only
  split
  · next rest => exact hdigits rest (List.suffix_cons _ rest)
  · next rest => exact hdigits rest (List.suffix_cons _ rest)
  · exact hdigits t List.suffix_rfl

theorem skipFraction_staysIn (t : Text) : StaysIn t id (skipFraction t) := by
  unfold skipFraction
  split
  · next rest =>
    refine StaysIn.mono ?_ (List.suffix_cons _ rest)
    have hdigits : rest.dropWhile Text.isDigit <:+ rest := List.dropWhile_suffix _
    split
    · split
      · next later heq =>
        exact (skipExponent_staysIn later).mono
          ((List.suffix_cons _ later).trans (heq ▸ hdigits))
      · next later heq =>
        exact (skipExponent_staysIn later).mono
          ((List.suffix_cons _ later).trans (heq ▸ hdigits))
      · exact hdigits
    · exact .faultAt _ List.suffix_rfl
  · next rest => exact (skipExponent_staysIn rest).mono (List.suffix_cons _ rest)
  · next rest => exact (skipExponent_staysIn rest).mono (List.suffix_cons _ rest)
  · exact List.suffix_rfl

theorem skipNumber_staysIn (t : Text) : StaysIn t id (skipNumber t) := by
  unfold skipNumber
  split
  · next rest =>
    split
    · exact .faultAt _ (List.suffix_cons _ rest)
    · exact (skipFraction_staysIn rest).mono (List.suffix_cons _ rest)
  · split
    · exact (skipFraction_staysIn _).mono (List.dropWhile_suffix _)
    · exact .faultAt _ List.suffix_rfl

/-! ## Between values -/

theorem readColon_staysIn (t : Text) : StaysIn t id (readColon t) := by
  unfold readColon
  split
  · exact .faultAt _ List.nil_suffix
  · next heq => exact suffix_of_skipSpace_eq heq
  · exact .faultAt _ (skipSpace_suffix t)

/-- The text from the next item on, or from the closing bracket. -/
def Next.text : Next → Text
  | item t => t
  | done t => t

theorem nextItem_staysIn (first : Bool) (t : Text) : StaysIn t Next.text (nextItem first t) := by
  have hskip := skipSpace_suffix t
  unfold nextItem
  split
  · exact .faultAt _ List.nil_suffix
  · next heq => exact heq ▸ hskip
  · next c rest _ heq =>
    have hrest := suffix_of_skipSpace_eq heq
    split
    · exact heq ▸ hskip
    · split
      · split
        · exact .faultAt _ List.nil_suffix
        · next later hlater => exact .faultAt _ (hlater ▸ (skipSpace_suffix rest).trans hrest)
        · exact (skipSpace_suffix rest).trans hrest
      · exact .faultAt _ (heq ▸ hskip)

theorem nextKey_staysIn (first : Bool) (t : Text) : StaysIn t Next.text (nextKey first t) := by
  have hskip := skipSpace_suffix t
  unfold nextKey
  split
  · exact .faultAt _ List.nil_suffix
  · next heq => exact heq ▸ hskip
  · next c rest _ heq =>
    have hrest := suffix_of_skipSpace_eq heq
    split
    · split
      · exact heq ▸ hskip
      · exact .faultAt _ (heq ▸ hskip)
    · split
      · split
        · exact .faultAt _ List.nil_suffix
        · next later hlater => exact hlater ▸ (skipSpace_suffix rest).trans hrest
        · next later hlater => exact .faultAt _ (hlater ▸ (skipSpace_suffix rest).trans hrest)
        · exact .faultAt _ ((skipSpace_suffix rest).trans hrest)
      · exact .faultAt _ (heq ▸ hskip)

theorem endList_staysIn (t : Text) : StaysIn t id (endList t) := by
  unfold endList
  split
  · exact .faultAt _ List.nil_suffix
  · next heq => exact suffix_of_skipSpace_eq heq
  · next rest heq =>
    have hrest := suffix_of_skipSpace_eq heq
    split
    · next later hlater => exact .faultAt _ (hlater ▸ (skipSpace_suffix rest).trans hrest)
    · exact .faultAt _ ((skipSpace_suffix rest).trans hrest)
  · exact .faultAt _ (skipSpace_suffix t)

theorem endText_staysIn (t : Text) : StaysIn t (fun _ => []) (endText t) := by
  unfold endText
  split
  · exact List.nil_suffix
  · exact .faultAt _ (skipSpace_suffix t)

/-! ## Values -/

/-- With this fuel, reading values, items and fields leaves ends of their texts. -/
structure ReadsStayIn (fuel : Nat) : Prop where
  value : ∀ depth t, StaysIn t Prod.snd (readValue fuel depth t)
  items : ∀ depth first t, StaysIn t Prod.snd (readItems fuel depth first t)
  fields : ∀ depth first fields t, StaysIn t Prod.snd (readFields fuel depth first fields t)

namespace ReadsStayIn

variable {fuel : Nat}

theorem readValue_succ (ih : ReadsStayIn fuel) (depth : Nat) (t : Text) :
    StaysIn t Prod.snd (readValue (fuel + 1) depth t) := by
  have hident : ∀ (ident rest : Text) (value : Json), rest <:+ t →
      StaysIn t Prod.snd ((readIdent ident rest).map fun rest => (value, rest)) := by
    intro ident rest value hrest
    exact ((readIdent_staysIn ident rest).mono hrest).map fun _ => rfl
  unfold readValue
  split
  · exact .faultAt _ List.nil_suffix
  · next heq => exact hident _ _ _ (suffix_of_skipSpace_eq heq)
  · next heq => exact hident _ _ _ (suffix_of_skipSpace_eq heq)
  · next heq => exact hident _ _ _ (suffix_of_skipSpace_eq heq)
  · next rest heq =>
    exact ((readString_staysIn rest).mono (suffix_of_skipSpace_eq heq)).map fun _ => rfl
  · next rest heq =>
    exact ((readNumber_staysIn true rest).mono (suffix_of_skipSpace_eq heq)).map fun _ => rfl
  · next rest heq =>
    have hrest := suffix_of_skipSpace_eq heq
    split
    · exact .faultBefore _ hrest
    · exact ((ih.items _ true rest).mono hrest).map fun _ => rfl
  · next rest heq =>
    have hrest := suffix_of_skipSpace_eq heq
    split
    · exact .faultBefore _ hrest
    · exact ((ih.fields _ true [] rest).mono hrest).map fun _ => rfl
  · next c rest _ _ _ _ _ _ _ heq =>
    have hrest : c :: rest <:+ t := heq ▸ skipSpace_suffix t
    split
    · exact ((readNumber_staysIn false _).mono hrest).map fun _ => rfl
    · exact .faultAt _ hrest

theorem readItems_succ (ih : ReadsStayIn fuel) (depth : Nat) (first : Bool) (t : Text) :
    StaysIn t Prod.snd (readItems (fuel + 1) depth first t) := by
  have hnext := nextItem_staysIn first t
  unfold readItems
  split
  · next heq => exact hnext.error heq
  · next heq => exact (List.drop_suffix 1 _).trans (hnext.ok heq)
  · next item heq =>
    have hvalue := (ih.value depth item).mono (hnext.ok heq)
    split
    · next herror => exact hvalue.error herror
    · next hread => exact ((ih.items depth false _).mono (hvalue.ok hread)).map fun _ => rfl

theorem readFields_succ (ih : ReadsStayIn fuel) (depth : Nat) (first : Bool)
    (fields : List (Text × Json)) (t : Text) :
    StaysIn t Prod.snd (readFields (fuel + 1) depth first fields t) := by
  have hnext := nextKey_staysIn first t
  unfold readFields
  split
  · next heq => exact hnext.error heq
  · next heq => exact (List.drop_suffix 1 _).trans (hnext.ok heq)
  · next item heq =>
    have hkey := (readString_staysIn (item.drop 1)).mono
      ((List.drop_suffix 1 item).trans (hnext.ok heq))
    split
    · next herror => exact hkey.error herror
    · next rest hread =>
      have hcolon := (readColon_staysIn rest).mono (hkey.ok hread)
      split
      · next herror => exact hcolon.error herror
      · next later hlater =>
        have hvalue := (ih.value depth later).mono (hcolon.ok hlater)
        split
        · next herror => exact hvalue.error herror
        · next hread => exact (ih.fields depth false _ _).mono (hvalue.ok hread)

end ReadsStayIn

theorem readsStayIn (fuel : Nat) : ReadsStayIn fuel := by
  induction fuel with
  | zero =>
    exact
      { value := fun _ _ => .faultAt _ List.suffix_rfl
        items := fun _ _ _ => .faultAt _ List.suffix_rfl
        fields := fun _ _ _ _ => .faultAt _ List.suffix_rfl }
  | succ fuel ih => exact ⟨ih.readValue_succ, ih.readItems_succ, ih.readFields_succ⟩

/-- With this fuel, skipping values, items and fields leaves ends of their texts. -/
structure SkipsStayIn (fuel : Nat) : Prop where
  value : ∀ t, StaysIn t id (skipValue fuel t)
  items : ∀ t, StaysIn t id (skipItems fuel t)
  fields : ∀ t, StaysIn t id (skipFields fuel t)

namespace SkipsStayIn

variable {fuel : Nat}

theorem skipValue_succ (ih : SkipsStayIn fuel) (t : Text) :
    StaysIn t id (skipValue (fuel + 1) t) := by
  unfold skipValue
  split
  · exact .faultAt _ List.nil_suffix
  · next heq => exact (readIdent_staysIn _ _).mono (suffix_of_skipSpace_eq heq)
  · next heq => exact (readIdent_staysIn _ _).mono (suffix_of_skipSpace_eq heq)
  · next heq => exact (readIdent_staysIn _ _).mono (suffix_of_skipSpace_eq heq)
  · next heq => exact (skipString_staysIn _).mono (suffix_of_skipSpace_eq heq)
  · next heq => exact (skipNumber_staysIn _).mono (suffix_of_skipSpace_eq heq)
  · next rest heq =>
    have hrest := suffix_of_skipSpace_eq heq
    split
    · exact .faultAt _ List.nil_suffix
    · next hlater => exact (suffix_of_skipSpace_eq hlater).trans hrest
    · exact (ih.items _).mono ((skipSpace_suffix rest).trans hrest)
  · next rest heq =>
    have hrest := suffix_of_skipSpace_eq heq
    split
    · next hlater => exact (suffix_of_skipSpace_eq hlater).trans hrest
    · exact (ih.fields _).mono ((skipSpace_suffix rest).trans hrest)
  · next c rest _ _ _ _ _ _ _ heq =>
    have hrest : c :: rest <:+ t := heq ▸ skipSpace_suffix t
    split
    · exact (skipNumber_staysIn _).mono hrest
    · exact .faultAt _ hrest

theorem skipItems_succ (ih : SkipsStayIn fuel) (t : Text) :
    StaysIn t id (skipItems (fuel + 1) t) := by
  have hvalue := ih.value t
  unfold skipItems
  split
  · next heq => exact hvalue.error heq
  · next rest heq =>
    have hrest : rest <:+ t := hvalue.ok heq
    split
    · exact .faultAt _ List.nil_suffix
    · next later hlater =>
      exact (ih.items later).mono ((suffix_of_skipSpace_eq hlater).trans hrest)
    · next hlater => exact (suffix_of_skipSpace_eq hlater).trans hrest
    · exact .faultAt _ ((skipSpace_suffix rest).trans hrest)

theorem skipFields_succ (ih : SkipsStayIn fuel) (t : Text) :
    StaysIn t id (skipFields (fuel + 1) t) := by
  unfold skipFields
  split
  · exact .faultAt _ List.nil_suffix
  · next rest heq =>
    have hkey := (skipString_staysIn rest).mono (suffix_of_skipSpace_eq heq)
    split
    · next herror => exact hkey.error herror
    · next rest hrest =>
      have hcolon := (readColon_staysIn rest).mono (hkey.ok hrest)
      split
      · next herror => exact hcolon.error herror
      · next rest hrest =>
        have hvalue := (ih.value rest).mono (hcolon.ok hrest)
        split
        · next herror => exact hvalue.error herror
        · next rest heq =>
          have hrest : rest <:+ t := hvalue.ok heq
          split
          · exact .faultAt _ List.nil_suffix
          · next later hlater =>
            exact (ih.fields later).mono ((suffix_of_skipSpace_eq hlater).trans hrest)
          · next hlater => exact (suffix_of_skipSpace_eq hlater).trans hrest
          · exact .faultAt _ ((skipSpace_suffix rest).trans hrest)
  · exact .faultAt _ (skipSpace_suffix t)

end SkipsStayIn

theorem skipsStayIn (fuel : Nat) : SkipsStayIn fuel := by
  induction fuel with
  | zero =>
    exact
      { value := fun _ => .faultAt _ List.suffix_rfl
        items := fun _ => .faultAt _ List.suffix_rfl
        fields := fun _ => .faultAt _ List.suffix_rfl }
  | succ fuel ih => exact ⟨ih.skipValue_succ, ih.skipItems_succ, ih.skipFields_succ⟩

/-! ## Shapes -/

theorem mismatch_staysIn (expected : String) (t : Text) : StaysIn t rest (mismatch expected t) := by
  have hliteral : ∀ found (answer : Except Fault Text), StaysIn t id answer →
      StaysIn t rest (mismatch.literal expected found answer) := by
    intro found answer hanswer
    cases answer with
    | ok later => exact .faultBefore _ hanswer
    | error f => exact hanswer
  have hscalar : ∀ {γ : Type} (found : γ → Found) (answer : Reading γ), StaysIn t Prod.snd answer →
      StaysIn t rest (mismatch.scalar expected found answer) := by
    intro γ found answer hanswer
    cases answer with
    | ok read => exact .faultBefore _ hanswer
    | error f => exact hanswer
  unfold mismatch
  split
  · exact hliteral _ _ ((readIdent_staysIn _ _).mono (List.suffix_cons _ _))
  · exact hliteral _ _ ((readIdent_staysIn _ _).mono (List.suffix_cons _ _))
  · exact hliteral _ _ ((readIdent_staysIn _ _).mono (List.suffix_cons _ _))
  · exact hscalar _ _ ((readString_staysIn _).mono (List.suffix_cons _ _))
  · exact hscalar _ _ ((readNumber_staysIn _ _).mono (List.suffix_cons _ _))
  · exact .faultBefore _ List.suffix_rfl
  · exact .faultBefore _ List.suffix_rfl
  · split
    · exact hscalar _ _ (readNumber_staysIn _ _)
    · exact .faultAt _ List.suffix_rfl
  · exact .faultAt _ List.suffix_rfl

theorem readOptional_staysIn {read : Text → Reading α}
    (hread : ∀ t, StaysIn t Prod.snd (read t)) (t : Text) :
    StaysIn t Prod.snd (readOptional read t) := by
  unfold readOptional
  split
  · next heq =>
    exact ((readIdent_staysIn _ _).mono (suffix_of_skipSpace_eq heq)).map fun _ => rfl
  · exact ((hread _).mono (skipSpace_suffix t)).map fun _ => rfl

theorem readText_staysIn (t : Text) : StaysIn t Prod.snd (readText t) := by
  unfold readText
  split
  · exact .faultAt _ List.nil_suffix
  · next heq => exact (readString_staysIn _).mono (suffix_of_skipSpace_eq heq)
  · exact (mismatch_staysIn _ _).mono (skipSpace_suffix t)

theorem readTexts_staysIn (fuel : Nat) (first : Bool) (t : Text) :
    StaysIn t Prod.snd (readTexts fuel first t) := by
  induction fuel generalizing first t with
  | zero => exact .faultAt _ List.suffix_rfl
  | succ fuel ih =>
    have hnext := nextItem_staysIn first t
    unfold readTexts
    split
    · next heq => exact hnext.error heq
    · next heq => exact (List.drop_suffix 1 _).trans (hnext.ok heq)
    · next item heq =>
      have htext := (readText_staysIn item).mono (hnext.ok heq)
      split
      · next herror => exact htext.error herror
      · next hread => exact ((ih false _).mono (htext.ok hread)).map fun _ => rfl

theorem readTextList_staysIn (t : Text) : StaysIn t Prod.snd (readTextList t) := by
  unfold readTextList
  split
  · exact .faultAt _ List.nil_suffix
  · next heq => exact (readTexts_staysIn _ _ _).mono (suffix_of_skipSpace_eq heq)
  · exact (mismatch_staysIn _ _).mono (skipSpace_suffix t)

theorem readObject_staysIn (depth : Nat) (t : Text) : StaysIn t Prod.snd (readObject depth t) := by
  unfold readObject
  split
  · exact .faultAt _ List.nil_suffix
  · next rest heq =>
    exact ((readsStayIn _).fields _ _ _ rest).mono (suffix_of_skipSpace_eq heq)
  · exact (mismatch_staysIn _ _).mono (skipSpace_suffix t)

theorem giveUpObject_suffix (t : Text) : giveUpObject t <:+ t := by
  unfold giveUpObject
  split
  · next heq => exact suffix_of_skipSpace_eq heq
  · exact skipSpace_suffix t

theorem giveUpList_suffix (t : Text) : giveUpList t <:+ t := by
  unfold giveUpList
  split
  · next heq => exact suffix_of_skipSpace_eq heq
  · next heq => exact (skipSpace_suffix _).trans (suffix_of_skipSpace_eq heq)
  · exact skipSpace_suffix t

/-- The line of a fault is one more than the number of newlines before its place. -/
theorem Fault.line_append (f : Fault) (before : Text) :
    f.line (before ++ f.rest) = 1 + before.count '\n' := by
  rw [Fault.line, List.count_append, Nat.add_sub_cancel]

end Typesweep.Json

/-! ## Declarations -/

namespace Typesweep.Declaration

open Json

variable {giveUp : Text → Text}

theorem readBases_staysIn (hgiveUp : ∀ t, giveUp t <:+ t) (t : Text) :
    StaysIn t Prod.snd (readBases giveUp t) := by
  have hvalue := (readsStayIn (fuelFor t)).value (maxDepth - 1) t
  unfold readBases
  split
  · next heq => exact hvalue.error heq
  · next value rest heq =>
    have hrest : rest <:+ t := hvalue.ok heq
    split
    · exact hrest
    · exact .faultBefore _ ((hgiveUp rest).trans hrest)

theorem readPart_staysIn (hgiveUp : ∀ t, giveUp t <:+ t) (d : Declaration) (part : Part)
    (t : Text) : StaysIn t Prod.snd (readPart giveUp d part t) := by
  cases part with
  | bases => exact (readOptional_staysIn (readBases_staysIn hgiveUp) t).map fun _ => rfl
  | files => exact (readOptional_staysIn readTextList_staysIn t).map fun _ => rfl
  | includes => exact (readOptional_staysIn readTextList_staysIn t).map fun _ => rfl
  | excludes => exact (readOptional_staysIn readTextList_staysIn t).map fun _ => rfl
  | options => exact (readOptional_staysIn (readObject_staysIn _) t).map fun _ => rfl

theorem readFields_staysIn (fuel : Nat) (first : Bool) (seen : List Part) (d : Declaration)
    (t : Text) : StaysIn t Prod.snd (readFields fuel first seen d t) := by
  induction fuel generalizing first seen d t with
  | zero => exact .faultAt _ List.suffix_rfl
  | succ fuel ih =>
    have hnext := nextKey_staysIn first t
    unfold readFields
    split
    · next heq => exact hnext.error heq
    · next heq => exact (List.drop_suffix 1 _).trans (hnext.ok heq)
    · next item heq =>
      have hkey := (readString_staysIn (item.drop 1)).mono
        ((List.drop_suffix 1 item).trans (hnext.ok heq))
      split
      · next herror => exact hkey.error herror
      · next key rest hread =>
        have hrest : rest <:+ t := hkey.ok hread
        have hcolon := (readColon_staysIn rest).mono hrest
        split
        · next part _ =>
          split
          · exact .faultBefore _ ((giveUpObject_suffix rest).trans hrest)
          · split
            · next herror => exact hcolon.error herror
            · next later hlater =>
              have hpart := (readPart_staysIn giveUpObject_suffix d part later).mono
                (hcolon.ok hlater)
              split
              · next herror => exact hpart.error herror
              · next hread => exact (ih _ _ _ _).mono (hpart.ok hread)
        · split
          · next herror => exact hcolon.error herror
          · next later hlater =>
            have hvalue := ((skipsStayIn (fuelFor later)).value later).mono (hcolon.ok hlater)
            split
            · next herror => exact hvalue.error herror
            · next hread => exact (ih _ _ _ _).mono (hvalue.ok hread)

theorem readItems_staysIn (first : Bool) (index : Nat) (parts : List Part) (d : Declaration)
    (t : Text) : StaysIn t Prod.snd (readItems first index parts d t) := by
  induction parts generalizing first index d t with
  | nil => exact (endList_staysIn t).map fun _ => rfl
  | cons part parts ih =>
    have hnext := nextItem_staysIn first t
    unfold readItems
    split
    · next heq => exact hnext.error heq
    · next heq => exact .faultBefore _ ((giveUpList_suffix _).trans (hnext.ok heq))
    · next item heq =>
      have hpart := (readPart_staysIn giveUpList_suffix d part item).mono (hnext.ok heq)
      split
      · next herror => exact hpart.error herror
      · next hread => exact (ih _ _ _ _).mono (hpart.ok hread)

/-- A fault of a declaration is noticed at a place of its text. -/
theorem read_staysIn (t : Text) : StaysIn t (fun _ => []) (read t) := by
  unfold read
  extract_lets result
  have hresult : StaysIn t Prod.snd result := by
    unfold result
    split
    · exact .faultAt _ List.nil_suffix
    · next heq => exact (readItems_staysIn _ _ _ _ _).mono (suffix_of_skipSpace_eq heq)
    · next heq => exact (readFields_staysIn _ _ _ _ _).mono (suffix_of_skipSpace_eq heq)
    · exact (mismatch_staysIn _ _).mono (skipSpace_suffix t)
  clear_value result
  cases result with
  | error f => exact hresult
  | ok read => exact ((endText_staysIn read.2).mono hresult).map fun _ => rfl

end Typesweep.Declaration
