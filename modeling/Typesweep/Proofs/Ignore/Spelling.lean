import Typesweep.Proofs.Ignore.Behind
import Typesweep.Proofs.Ignore.Scoped

/-!
# Reading a line piece by piece

A line is trimmed, its start and its end are taken away, and what is left is spelled out as the text
that the pattern is read from. A directory before the pattern is carried along by each of these
steps, as long as something of the pattern is left behind it.

* `trimLine_append`, `splitEnd_append_slash`, `spellOut_append_slash`: the steps behind a directory.
* `globText`, `ofLine_eq`: the text of the pattern, and what the line means by it.
* `ofLine_anchored`, `ofLine_name`, `ofLine_behind`: the lines by their shape.
* `ofLine_behind_blanks`: nothing is left behind the directory.
-/

namespace Typesweep

open Text

variable {line lead t : Text} {c : Char}

namespace Text

theorem trimEnd_append {drop : Char → Bool} (hc : c ∈ t) (hdrop : drop c = false) (s : Text) :
    trimEnd drop (s ++ t) = s ++ trimEnd drop t := by
  have hkept : (t.reverse.dropWhile drop).isEmpty = false := by
    rw [Bool.eq_false_iff, ne_eq, List.isEmpty_iff, List.dropWhile_eq_nil_iff]
    intro hall
    exact absurd (hall c (List.mem_reverse.mpr hc)) (by simp [hdrop])
  rw [trimEnd, trimEnd, List.reverse_append, List.dropWhile_append, hkept]
  simp

theorem prefix_trimEnd (drop : Char → Bool) (t : Text) : trimEnd drop t <+: t := by
  obtain ⟨trimmed, heq, -⟩ := exists_trimEnd_append drop t
  exact ⟨trimmed, heq.symm⟩

theorem mem_trimEnd {drop : Char → Bool} (hc : c ∈ t) (hdrop : drop c = false) :
    c ∈ trimEnd drop t := by
  obtain ⟨trimmed, heq, hall⟩ := exists_trimEnd_append drop t
  rw [heq] at hc
  rcases List.mem_append.mp hc with hc | hc
  · exact hc
  · exact absurd (hall c hc) (by simp [hdrop])

theorem drop_of_getLast?_trimEnd {drop : Char → Bool} (h : (trimEnd drop t).getLast? = some c) :
    drop c = false := by
  rw [trimEnd, List.getLast?_reverse] at h
  have hnot := List.head?_dropWhile_not drop t.reverse
  rw [h] at hnot
  exact hnot

end Text

namespace IgnorePattern

/-! ## The blanks at the end -/

/-- Only what stands behind the last character that is no blank is trimmed. -/
theorem trimLine_append (hc : c ∈ t) (hblank : isBlank c = false) (s : Text) :
    trimLine (s ++ t) = s ++ trimLine t := by
  have hends : Text.endsWith ['\\', ' '] (s ++ t) = Text.endsWith ['\\', ' '] t := by
    rw [Bool.eq_iff_iff, Text.endsWith, Text.endsWith, List.isSuffixOf_iff_suffix,
      List.isSuffixOf_iff_suffix]
    refine ⟨fun h => ?_, fun h => h.trans (List.suffix_append s t)⟩
    rcases List.suffix_or_suffix_of_suffix h (List.suffix_append s t) with h | ⟨start, h⟩
    · exact h
    · cases start with
      | nil => exact ⟨[], h.symm⟩
      | cons a start =>
        have hspace : c ∈ [' '] := (List.cons.inj h).2 ▸ List.mem_append_right start hc
        rw [List.mem_singleton.mp hspace] at hblank
        exact absurd hblank (by decide)
  rw [trimLine, trimLine, hends, trimEnd_append hc hblank]
  split <;> rfl

theorem prefix_trimLine (t : Text) : trimLine t <+: t := by
  unfold trimLine
  split
  · exact List.prefix_rfl
  · exact prefix_trimEnd _ t

theorem mem_trimLine (hc : c ∈ t) (hblank : isBlank c = false) : c ∈ trimLine t := by
  unfold trimLine
  split
  · exact hc
  · exact mem_trimEnd hc hblank

/-! ## The end of a rule -/

theorem splitEnd_cons (hc : c ≠ '/') (hescape : c ≠ '\\') (t : Text) :
    ∃ t', (splitEnd (c :: t)).2 = c :: t' := by
  by_cases hne : t = []
  · subst hne
    exact ⟨[], by simp [splitEnd, hc]⟩
  · by_cases hslash : t = ['/']
    · subst hslash
      exact ⟨[], by simp [splitEnd, hescape]⟩
    · exact ⟨(splitEnd t).2, by rw [← List.singleton_append, splitEnd_append [c] hne hslash]; rfl⟩

theorem slash_notMem_splitEnd (hslash : '/' ∉ t) : '/' ∉ (splitEnd t).2 := by
  unfold splitEnd
  split
  · next heq => exact absurd (List.mem_reverse.mp (heq ▸ List.mem_cons_self)) hslash
  · next heq => exact absurd (List.mem_reverse.mp (heq ▸ List.mem_cons_self)) hslash
  · exact hslash

theorem slash_notMem_splitEnd_concat (hslash : '/' ∉ t) : '/' ∉ (splitEnd (t ++ ['/'])).2 := by
  have hkept : ∀ before, before <:+ t.reverse → '/' ∉ before.reverse := fun before hbefore hmem =>
    hslash (List.mem_reverse.mp (hbefore.mem (List.mem_reverse.mp hmem)))
  unfold splitEnd
  rw [List.reverse_append, List.reverse_singleton, List.singleton_append]
  split
  · next before heq =>
    exact hkept before ((List.cons.inj heq).2 ▸ List.suffix_cons _ _)
  · next before _ heq =>
    exact hkept before ((List.cons.inj heq).2 ▸ List.suffix_rfl)
  · next hother => exact absurd rfl (hother t.reverse)

/-- Nothing behind the slash makes the line a rule for the directory. -/
theorem splitEnd_plain_slash (hlead : ∀ c ∈ lead, IgnoreGlob.IsOrdinary c) :
    splitEnd (lead ++ ['/']) = (true, lead) := by
  have hescape : '\\' ∉ lead := fun h => (hlead _ h).2.2.2.2 rfl
  rw [splitEnd, List.reverse_append, List.reverse_singleton, List.singleton_append]
  split
  · next before heq =>
    have hmem : '\\' ∈ lead.reverse := (List.cons.inj heq).2 ▸ List.mem_cons_self
    exact absurd (List.mem_reverse.mp hmem) hescape
  · next before _ heq => rw [← (List.cons.inj heq).2, List.reverse_reverse]
  · next hother => exact absurd rfl (hother lead.reverse)

/-! ## The pattern spelled out -/

theorem endsWith_stars_iff (t : Text) :
    Text.endsWith "/**".toList t = true ↔ IgnoreGlob.EndsInside t :=
  List.isSuffixOf_iff_suffix

theorem endsInside_append_slash (lead : Text) (ht : t ≠ "**".toList) :
    IgnoreGlob.EndsInside (lead ++ '/' :: t) ↔ IgnoreGlob.EndsInside t := by
  constructor
  · intro h
    rcases List.suffix_or_suffix_of_suffix h (List.suffix_append lead ('/' :: t)) with h | h
    · rcases List.suffix_cons_iff.mp h with heq | h
      · exact absurd (List.cons.inj heq).2.symm ht
      · exact h
    · rcases List.suffix_cons_iff.mp h with heq | h
      · exact absurd (List.cons.inj heq).2 ht
      · exact absurd (h.mem List.mem_cons_self) (by decide)
  · intro h
    exact h.trans ((List.suffix_cons '/' t).trans (List.suffix_append lead _))

/-- A pattern behind a directory is spelled out as it is by itself, two stars alone excepted. -/
theorem spellOut_append_slash (anchored : Bool) (lead : Text) (ht : t ≠ "**".toList) :
    spellOut anchored (lead ++ '/' :: t) = lead ++ '/' :: spellOut true t := by
  have hslash : (lead ++ '/' :: t).contains '/' = true := by simp
  have hends : Text.endsWith "/**".toList (lead ++ '/' :: t) = Text.endsWith "/**".toList t := by
    rw [Bool.eq_iff_iff, endsWith_stars_iff, endsWith_stars_iff, endsInside_append_slash lead ht]
  rw [spellOut, spellOut, hslash, Bool.or_true, Bool.true_or, Bool.true_or, Bool.true_or,
    if_pos rfl, if_pos rfl]
  rw [hends]
  split <;> simp

theorem spellOut_append_stars (anchored : Bool) (lead : Text) :
    spellOut anchored (lead ++ "/**".toList) = lead ++ "/**/*".toList := by
  have hslash : (lead ++ "/**".toList).contains '/' = true := by simp
  have hends : Text.endsWith "/**".toList (lead ++ "/**".toList) = true :=
    (endsWith_stars_iff _).mpr (List.suffix_append _ _)
  rw [spellOut, hslash, Bool.or_true, Bool.true_or, if_pos rfl]
  rw [hends]
  simp

theorem not_endsInside_spellOut (anchored : Bool) (h : spellOut anchored t ≠ "**".toList) :
    ¬IgnoreGlob.EndsInside ('/' :: spellOut anchored t) := by
  rw [← List.nil_append ('/' :: spellOut anchored t), endsInside_append_slash [] h]
  unfold spellOut
  dsimp only
  generalize (if (anchored || t.contains '/' || decide (t = "**".toList)) = true then t
    else "**/".toList ++ t) = started
  split
  · intro hinside
    have hshort := List.suffix_of_suffix_length_le (List.suffix_append started "/*".toList) hinside
      (by decide)
    exact absurd hshort (by decide)
  · next hends => exact fun hinside => hends ((endsWith_stars_iff started).mpr hinside)

/-! ## What a line means, in pieces -/

theorem spellOut_eq_stars {anchored : Bool} {pattern : Text}
    (h : spellOut anchored pattern = "**".toList) : pattern = "**".toList := by
  have hslash : '/' ∉ "**".toList := by decide
  unfold spellOut at h
  dsimp only at h
  generalize hstarted : (if (anchored || pattern.contains '/' || decide (pattern = "**".toList)) =
    true then pattern else "**/".toList ++ pattern) = started at h
  split at h
  · rw [← h] at hslash
    exact absurd (by simp) hslash
  · subst h
    split at hstarted
    · exact hstarted
    · rw [← hstarted] at hslash
      exact absurd (by simp) hslash

theorem spellOut_of_slash_notMem (hslash : '/' ∉ t) (hstars : t ≠ "**".toList) :
    spellOut false t = "**/".toList ++ t := by
  have hends : Text.endsWith "/**".toList ("**/".toList ++ t) = false := by
    rw [Bool.eq_false_iff, ne_eq, endsWith_stars_iff]
    intro hinside
    have hinside := (endsInside_append_slash "**".toList hstars).mp hinside
    exact hslash (hinside.mem List.mem_cons_self)
  have hcontains : t.contains '/' = false := by simpa using hslash
  simp only [spellOut, hcontains, hstars, Bool.or_false, decide_false, Bool.false_eq_true, if_false,
    hends]

theorem spellOut_true_plain (hlead : ∀ c ∈ lead, IgnoreGlob.IsOrdinary c) :
    spellOut true lead = lead := by
  have hends : Text.endsWith "/**".toList lead = false := by
    rw [Bool.eq_false_iff, ne_eq, endsWith_stars_iff]
    intro hinside
    exact (hlead '*' (hinside.mem (by decide))).2.1 rfl
  simp only [spellOut, Bool.true_or, if_true, hends, Bool.false_eq_true, if_false]

/-! ## The start of a rule -/

/-- The start of a line that is not anchored. -/
theorem splitStart_cases {mark name : Text} (hmark : mark = [] ∨ mark = ['!']) (hne : name ≠ [])
    (hslash : name.head? ≠ some '/') (hbang : mark = [] → name.head? ≠ some '!') :
    splitStart (mark ++ name) = (decide (mark ≠ []), false, name) ∨
      ∃ c t, (c = '!' ∨ c = '#') ∧ name = '\\' :: c :: t ∧ mark = [] ∧
        splitStart (mark ++ name) = (false, false, c :: t) := by
  obtain ⟨first, rest, rfl⟩ := List.exists_cons_of_ne_nil hne
  have hfirst : first ≠ '/' := by simpa using hslash
  rcases hmark with rfl | rfl
  · by_cases hescape : ∃ c t, (c = '!' ∨ c = '#') ∧ first :: rest = '\\' :: c :: t
    · obtain ⟨c, t, hc, heq⟩ := hescape
      refine .inr ⟨c, t, hc, heq, rfl, ?_⟩
      rw [heq]
      rcases hc with rfl | rfl <;> rfl
    · have hplain : splitNegation (first :: rest) = ([], first :: rest) := by
        unfold splitNegation
        split
        · next heq => exact absurd (congrArg List.head? heq) (hbang rfl)
        · rfl
      left
      unfold splitStart
      split
      · next t heq => exact absurd ⟨'!', t, .inl rfl, heq⟩ hescape
      · next t heq => exact absurd ⟨'#', t, .inr rfl, heq⟩ hescape
      · rw [List.nil_append, hplain]
        dsimp only
        split
        · next heq => exact absurd (List.cons.inj heq).1 hfirst
        · rfl
  · exact .inl (splitStart_of_splitNegation rfl hfirst (by simp))

/-- The backslash that protects a `!` or `#` at the start can stay: it makes no difference to what
the pattern is read as. -/
theorem protected_eq (hc : c = '!' ∨ c = '#') (hslash : '/' ∉ (splitEnd ('\\' :: c :: t)).2) :
    (splitEnd (c :: t)).1 = (splitEnd ('\\' :: c :: t)).1 ∧
      IgnoreGlob.parse (spellOut false (splitEnd (c :: t)).2) =
        IgnoreGlob.parse (spellOut false (splitEnd ('\\' :: c :: t)).2) ∧
      IgnoreGlob.isBareComponents (spellOut false (splitEnd ('\\' :: c :: t)).2) = false := by
  obtain ⟨hplain, hother, hstar⟩ : IgnoreGlob.IsPlain c ∧ c ≠ '/' ∧ c ≠ '*' := by
    rcases hc with rfl | rfl <;> decide
  obtain ⟨t', ht'⟩ := splitEnd_cons hother hplain.1.2.2.2.2 t
  have hend : splitEnd ('\\' :: c :: t) = ((splitEnd (c :: t)).1, '\\' :: c :: t') := by
    rw [← ht']
    exact splitEnd_append ['\\'] (List.cons_ne_nil _ _) fun h => hother (List.cons.inj h).1
  rw [hend] at hslash
  rw [hend, ht', spellOut_of_slash_notMem hslash (by simp),
    spellOut_of_slash_notMem (by simpa using hslash) (by simp [hstar])]
  exact ⟨rfl, (IgnoreGlob.parse_escape hplain t').symm, rfl⟩

/-! ## What a line means -/

/-- What a line means by the elements that its pattern is read as. -/
def Meaning.ofTokens (negated dirsOnly : Bool) : Option (List IgnoreGlob.Token) → Meaning
  | none => .invalid
  | some tokens => .rule ⟨tokens, negated, dirsOnly⟩

/-- The text that the pattern of a line is read from. -/
def globText (line : Text) : Text :=
  let (_, anchored, rest) := splitStart (trimLine line)
  spellOut anchored (splitEnd rest).2

theorem ofLine_eq {negated anchored : Bool} {rest : Text} (hcomment : line.head? ≠ some '#')
    (hblank : trimLine line ≠ [])
    (hstart : splitStart (trimLine line) = (negated, anchored, rest)) :
    ofLine line = .ofTokens negated (splitEnd rest).1
      (IgnoreGlob.parse (spellOut anchored (splitEnd rest).2)) := by
  rw [ofLine, if_neg hcomment]
  dsimp only
  rw [if_neg hblank, hstart]
  dsimp only
  cases IgnoreGlob.parse (spellOut anchored (splitEnd rest).2) <;> rfl

/-- The meaning of an anchored line. -/
theorem ofLine_anchored {mark rest rest' : Text} (hmark : mark = [] ∨ mark = ['!'])
    (htrim : trimLine ('/' :: rest) = '/' :: rest') :
    ofLine (mark ++ '/' :: rest) = .ofTokens (decide (mark ≠ [])) (splitEnd rest').1
        (IgnoreGlob.parse (globText (mark ++ '/' :: rest))) ∧
      globText (mark ++ '/' :: rest) = spellOut true (splitEnd rest').2 := by
  have htrimmed : trimLine (mark ++ '/' :: rest) = mark ++ '/' :: rest' := by
    rw [trimLine_append List.mem_cons_self (by decide : isBlank '/' = false), htrim]
  have hstart : splitStart (mark ++ '/' :: rest') = (decide (mark ≠ []), true, rest') := by
    rcases hmark with rfl | rfl <;> rfl
  have hglob : globText (mark ++ '/' :: rest) = spellOut true (splitEnd rest').2 := by
    rw [globText, htrimmed, hstart]
  refine ⟨?_, hglob⟩
  rw [hglob]
  refine ofLine_eq ?_ (by simp [htrimmed]) (htrimmed ▸ hstart)
  rcases hmark with rfl | rfl <;> simp

/-- The meaning of a line that is not anchored. -/
theorem ofLine_name {mark name : Text} (hmark : mark = [] ∨ mark = ['!'])
    (hcomment : (mark ++ name).head? ≠ some '#') (hc : c ∈ name) (hblank : isBlank c = false)
    (hhead : name.head? ≠ some '/') (hbang : mark = [] → name.head? ≠ some '!')
    (hslash : '/' ∉ (splitEnd (trimLine name)).2) :
    ofLine (mark ++ name) = .ofTokens (decide (mark ≠ [])) (splitEnd (trimLine name)).1
        (IgnoreGlob.parse (spellOut false (splitEnd (trimLine name)).2)) ∧
      (IgnoreGlob.isBareComponents (globText (mark ++ name)) = false →
        IgnoreGlob.isBareComponents (spellOut false (splitEnd (trimLine name)).2) = false) := by
  have hne : trimLine name ≠ [] := List.ne_nil_of_mem (mem_trimLine hc hblank)
  have htrimmed : trimLine (mark ++ name) = mark ++ trimLine name := trimLine_append hc hblank mark
  have hsame : (trimLine name).head? = name.head? := by
    obtain ⟨cut, hcut⟩ := prefix_trimLine name
    conv_rhs => rw [← hcut, List.head?_append_of_ne_nil _ hne]
  have hnonblank : trimLine (mark ++ name) ≠ [] := by simp [htrimmed, hne]
  rw [← hsame] at hhead hbang
  rcases splitStart_cases hmark hne hhead hbang with hstart | ⟨c, t, hc, heq, rfl, hstart⟩
  · rw [← htrimmed] at hstart
    rw [globText, hstart]
    exact ⟨ofLine_eq hcomment hnonblank hstart, id⟩
  · rw [← htrimmed] at hstart
    rw [heq] at hslash ⊢
    obtain ⟨hdirs, hread, hbare⟩ := protected_eq hc hslash
    refine ⟨?_, fun _ => hbare⟩
    rw [ofLine_eq hcomment hnonblank hstart, hdirs, hread]
    rfl

/-- The meaning of a line with a directory before its pattern. -/
theorem ofLine_behind {mark anchor rest rest' : Text} (hlead : ReadAsItself lead)
    (hhash : lead.head? ≠ some '#') (hmark : mark = [] ∨ mark = ['!'])
    (hanchor : anchor = [] ∨ anchor = ['/']) (htrim : trimLine ('/' :: rest) = '/' :: rest') :
    ofLine (mark ++ (anchor ++ (lead ++ '/' :: rest))) =
      .ofTokens (decide (mark ≠ [])) (splitEnd (lead ++ '/' :: rest')).1
        (IgnoreGlob.parse
          (spellOut (decide (anchor ≠ [])) (splitEnd (lead ++ '/' :: rest')).2)) := by
  have hassoc : ∀ t, mark ++ (anchor ++ (lead ++ t)) = (mark ++ (anchor ++ lead)) ++ t := by simp
  have htrimmed : trimLine (mark ++ (anchor ++ (lead ++ '/' :: rest))) =
      mark ++ (anchor ++ (lead ++ '/' :: rest')) := by
    rw [hassoc, trimLine_append List.mem_cons_self (by decide : isBlank '/' = false), htrim,
      ← hassoc]
  refine ofLine_eq ?_ (by simp [htrimmed]) ?_
  · obtain ⟨c, lead, rfl, -, -⟩ := hlead.starts
    have hfirst : c ≠ '#' := by simpa using hhash
    rcases hmark with rfl | rfl <;> rcases hanchor with rfl | rfl <;> simp [hfirst]
  · rw [htrimmed, splitStart_of_readAsItself hlead hmark hanchor]

/-- The meaning of a line of nothing but a directory between slashes, and blanks. -/
theorem ofLine_behind_blanks {mark rest : Text} (hlead : ReadAsItself lead)
    (hplain : ∀ c ∈ lead, IgnoreGlob.IsPlain c) (hhash : lead.head? ≠ some '#')
    (hmark : mark = [] ∨ mark = ['!']) (htrim : trimLine ('/' :: rest) = ['/']) :
    ofLine (mark ++ (['/'] ++ (lead ++ '/' :: rest))) =
      .rule ⟨lead.map .literal, decide (mark ≠ []), true⟩ := by
  have hordinary : ∀ c ∈ lead, IgnoreGlob.IsOrdinary c := fun c hc => (hplain c hc).1
  rw [ofLine_behind hlead hhash hmark (.inr rfl) htrim, splitEnd_plain_slash hordinary]
  dsimp only
  rw [show decide (['/'] ≠ []) = true from rfl, spellOut_true_plain hordinary,
    IgnoreGlob.parse_of_isPlain hplain]
  rfl

end IgnorePattern

end Typesweep
