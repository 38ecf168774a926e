import Mathlib.Data.List.DropRight
import Typesweep.Ignore.Matcher
import Typesweep.Proofs.Ignore.Prefix
import Typesweep.Proofs.Text.Lines

/-!
# Lines of nested rule files

A line of a nested rule file is reworded by putting the directory of the file before its pattern.
What is put there is read again as part of the pattern, so the rule stays below the directory only
if the directory is read as itself (`ReadAsItself`), and only if something of the pattern is left
behind the slash after it: a bare slash (`isBareSlash`) becomes a rule for the directory itself.

* `StaysBelow`: the rule of a line matches only below a directory.
* `IgnoreRule.line_of_parse?`: writing a rule gives its line again.
* `staysBelow_lineFromBelow`: the reworded lines of a file in the directory.
* `staysBelow_lineFromBelow_deeper`: those of a file in a directory below it.
-/

namespace Typesweep

open Text

variable {line lead more t : Text} {c : Char}

namespace Text

/-- Trimming ends at a character that is not of the class. -/
theorem exists_trimEnd_append_cons {drop : Char → Bool} (hc : drop c = false) (s t : Text) :
    ∃ t', trimEnd drop (s ++ c :: t) = s ++ c :: t' := by
  obtain ⟨trimmed, htrimmed, hdrop⟩ := exists_trimEnd_append drop (s ++ c :: t)
  have hshort : trimEnd drop (s ++ c :: t) <+: s ++ c :: t := ⟨trimmed, htrimmed.symm⟩
  have hstart : s ++ [c] <+: s ++ c :: t := ⟨t, by simp⟩
  rcases List.prefix_or_prefix_of_prefix hstart hshort with ⟨t', ht'⟩ | hshorter
  · exact ⟨t', by rw [← ht', List.append_assoc, List.singleton_append]⟩
  · -- Otherwise the character itself would have been trimmed.
    rcases List.prefix_concat_iff.mp hshorter with heq | hle
    · exact ⟨[], heq⟩
    · obtain ⟨rest, hrest⟩ := hle
      have hmem : c ∈ trimmed := by
        have hsplit : rest ++ c :: t = trimmed := by
          refine (List.append_right_inj (trimEnd drop (s ++ c :: t))).mp ?_
          rw [← List.append_assoc, hrest, ← htrimmed]
        rw [← hsplit]
        exact List.mem_append_right rest List.mem_cons_self
      exact absurd (hdrop c hmem) (by simp [hc])

theorem dropCarriageReturns_idem (t : Text) :
    dropCarriageReturns (dropCarriageReturns t) = dropCarriageReturns t := by
  rw [dropCarriageReturns, dropCarriageReturns, trimEnd, trimEnd, List.reverse_reverse,
    List.dropWhile_idempotent]

theorem trim_eq_self {drop : Char → Bool} (hhead : ∀ c, t.head? = some c → drop c = false)
    (hlast : ∀ c, t.getLast? = some c → drop c = false) : trim drop t = t := by
  have hstart : trimStart drop t = t := by
    cases t with
    | nil => rfl
    | cons c rest => exact List.dropWhile_cons_of_neg (by simp [hhead c rfl])
  rw [trim, hstart, trimEnd_of_getLast? hlast]

end Text

/-! ## Reading a line -/

/-- Writing a rule gives the line that it was read from. -/
theorem IgnoreRule.line_of_parse? {scope : Path} {rule : IgnoreRule}
    (h : IgnoreRule.parse? line scope = some rule) : rule.line = dropCarriageReturns line := by
  unfold IgnoreRule.parse? at h
  dsimp only at h
  split at h
  · cases h
  · obtain rfl := Option.some.inj h
    unfold IgnoreRule.line splitNegation
    split <;> simp_all

theorem IgnoreRule.parse?_dropCarriageReturns (line : Text) (scope : Path) :
    IgnoreRule.parse? (dropCarriageReturns line) scope = IgnoreRule.parse? line scope := by
  rw [IgnoreRule.parse?, dropCarriageReturns_idem]
  rfl

/-- A text that is read as itself where it stands at the start of a rule. -/
structure ReadAsItself (lead : Text) : Prop where
  ordinary : ∀ c ∈ lead, IgnoreGlob.IsOrdinary c
  /-- It starts with a character, and this is no mark of a rule. -/
  starts : ∃ c rest, lead = c :: rest ∧ c ≠ '!' ∧ c ≠ '/'

theorem ReadAsItself.head?_ne (h : ReadAsItself lead) : lead.head? ≠ some '/' := by
  obtain ⟨c, rest, rfl, -, hslash⟩ := h.starts
  simpa using hslash

/-- Every path that the rule of the line matches starts with `lead` and a slash. -/
def StaysBelow (lead : RawText) (line : Text) : Prop :=
  ∀ scope rule pattern, IgnoreRule.parse? line scope = some rule →
    IgnorePattern.ofLine rule.line = .rule pattern →
      ∀ (u : RawText) isDir, pattern.accepts u isDir = true →
        ∃ below, u = lead ++ RawText.slash :: below

theorem StaysBelow.of_none {lead : RawText} (h : ∀ scope, IgnoreRule.parse? line scope = none) :
    StaysBelow lead line := by
  intro scope rule pattern hrule
  rw [h scope] at hrule
  cases hrule

namespace IgnorePattern

theorem exists_trimLine_eq (hc : isBlank c = false) (s t : Text) :
    ∃ t', trimLine (s ++ c :: t) = s ++ c :: t' := by
  unfold trimLine
  split
  · exact ⟨t, rfl⟩
  · exact exists_trimEnd_append_cons hc s t

theorem splitStart_of_splitNegation {line mark rest : Text}
    (h : splitNegation line = (mark, c :: rest)) (hslash : c ≠ '/')
    (hhead : line.head? ≠ some '\\') :
    splitStart line = (decide (mark ≠ []), false, c :: rest) := by
  unfold splitStart
  split
  · exact absurd rfl hhead
  · exact absurd rfl hhead
  · rw [h]
    dsimp only
    split
    · next heq => exact absurd (List.cons.inj heq).1 hslash
    · rfl

theorem splitStart_of_readAsItself (hlead : ReadAsItself lead) {mark anchor : Text}
    (hmark : mark = [] ∨ mark = ['!']) (hanchor : anchor = [] ∨ anchor = ['/']) (t : Text) :
    splitStart (mark ++ (anchor ++ (lead ++ t))) =
      (decide (mark ≠ []), decide (anchor ≠ []), lead ++ t) := by
  obtain ⟨c, rest, rfl, hbang, hslash⟩ := hlead.starts
  have hescape : (c :: (rest ++ t)).head? ≠ some '\\' := fun heq =>
    (hlead.ordinary c List.mem_cons_self).2.2.2.2 (Option.some.inj heq)
  have hplain : splitNegation (c :: (rest ++ t)) = ([], c :: (rest ++ t)) := by
    unfold splitNegation
    split
    · next heq => exact absurd (List.cons.inj heq).1 hbang
    · rfl
  have hnegated : splitNegation ('!' :: c :: (rest ++ t)) = (['!'], c :: (rest ++ t)) := rfl
  rcases hmark with rfl | rfl <;> rcases hanchor with rfl | rfl
  · exact splitStart_of_splitNegation hplain hslash hescape
  · rfl
  · exact splitStart_of_splitNegation hnegated hslash (by simp)
  · rfl

/-- What is taken away at the end of a pattern does not reach further than the text there, unless
this is a slash alone. -/
theorem splitEnd_append (lead : Text) (hne : t ≠ []) (hslash : t ≠ ['/']) :
    splitEnd (lead ++ t) = ((splitEnd t).1, lead ++ (splitEnd t).2) := by
  obtain ⟨first, rest, hreverse⟩ := List.exists_cons_of_ne_nil (List.reverse_ne_nil_iff.mpr hne)
  rw [splitEnd, splitEnd, List.reverse_append, hreverse, List.cons_append]
  by_cases hfirst : first = '/'
  · subst hfirst
    cases rest with
    | nil => exact absurd (List.reverse_eq_iff.mp hreverse) hslash
    | cons second rest =>
      by_cases hsecond : second = '\\'
      · subst hsecond
        simp
      · simp [hsecond]
  · simp [hfirst]

/-- What is taken away at the end of a pattern lies behind any slash that something follows. -/
theorem splitEnd_append_slash (lead : Text) (hne : t ≠ []) :
    splitEnd (lead ++ '/' :: t) = ((splitEnd t).1, lead ++ '/' :: (splitEnd t).2) := by
  by_cases hslash : t = ['/']
  · subst hslash
    simp [splitEnd]
  · have hsplit := splitEnd_append (lead ++ ['/']) hne hslash
    rwa [List.append_assoc, List.append_assoc] at hsplit

/-- What stands before the last character of a pattern is kept, if it ends with a slash. -/
theorem exists_splitEnd_eq (lead : Text) (hne : t ≠ []) :
    ∃ t', (splitEnd (lead ++ '/' :: t)).2 = lead ++ '/' :: t' :=
  ⟨(splitEnd t).2, by rw [splitEnd_append_slash lead hne]⟩

theorem exists_spellOut_eq (lead : Text) (anchored : Bool) (t : Text) :
    ∃ t', spellOut anchored (lead ++ '/' :: t) = lead ++ '/' :: t' := by
  unfold spellOut
  have hslash : (lead ++ '/' :: t).contains '/' = true := by simp
  rw [hslash, Bool.or_true, Bool.true_or, if_pos rfl]
  dsimp only
  split
  · exact ⟨t ++ "/*".toList, by simp⟩
  · exact ⟨t, rfl⟩

/-- The text of a rule's pattern, once its start and its end are taken away and spelled out. -/
theorem parse_of_ofLine {pattern : IgnorePattern} (h : ofLine line = .rule pattern) :
    IgnoreGlob.parse (spellOut (splitStart (trimLine line)).2.1
      (splitEnd (splitStart (trimLine line)).2.2).2) = some pattern.tokens := by
  unfold ofLine at h
  dsimp only at h
  split at h
  · cases h
  · split at h
    · cases h
    · split at h
      · cases h
      · next tokens hparse =>
        cases h
        exact hparse

end IgnorePattern

/-! ## Reworded lines -/

/-- A line that starts with a directory, read as itself, and has something left behind it. -/
theorem staysBelow_of_readAsItself (hlead : ReadAsItself lead) {mark anchor : Text}
    (hmark : mark = [] ∨ mark = ['!']) (hanchor : anchor = [] ∨ anchor = ['/'])
    (hc : isBlank c = false) (s t : Text) :
    StaysBelow (toUtf8 lead) (mark ++ (anchor ++ (lead ++ '/' :: (s ++ c :: t)))) := by
  intro scope rule pattern hrule hpattern u isDir haccepts
  have hreturn : decide (c = '\r') = false := by
    by_contra h
    obtain rfl : c = '\r' := by simpa using h
    exact absurd hc (by decide)
  have hassoc : ∀ t', mark ++ (anchor ++ (lead ++ '/' :: (s ++ c :: t'))) =
      (mark ++ (anchor ++ (lead ++ '/' :: s))) ++ c :: t' := by simp
  obtain ⟨t₁, ht₁⟩ : ∃ t₁, rule.line = (mark ++ (anchor ++ (lead ++ '/' :: s))) ++ c :: t₁ := by
    rw [IgnoreRule.line_of_parse? hrule, hassoc]
    exact exists_trimEnd_append_cons hreturn _ _
  obtain ⟨t₂, ht₂⟩ :=
    IgnorePattern.exists_trimLine_eq hc (mark ++ (anchor ++ (lead ++ '/' :: s))) t₁
  have hstart := IgnorePattern.splitStart_of_readAsItself hlead hmark hanchor
    ('/' :: (s ++ c :: t₂))
  obtain ⟨t₃, ht₃⟩ := IgnorePattern.exists_splitEnd_eq lead (t := s ++ c :: t₂) (by simp)
  obtain ⟨t₄, ht₄⟩ := IgnorePattern.exists_spellOut_eq lead (decide (anchor ≠ [])) t₃
  have hparse := IgnorePattern.parse_of_ofLine hpattern
  rw [ht₁, ht₂, ← hassoc, hstart] at hparse
  dsimp only at hparse
  rw [ht₃, ht₄] at hparse
  exact IgnoreGlob.exists_below_of_accepts hlead.ordinary hparse
    (Bool.and_eq_true_iff.mp haccepts).2

/-- Whether the pattern of a line is a slash with nothing behind it. -/
def isBareSlash (line : Text) : Bool :=
  match (splitNegation (dropCarriageReturns line)).2 with
  | '/' :: blanks => blanks.all isBlank
  | _ => false

theorem mark_splitNegation (line : Text) :
    (splitNegation line).1 = [] ∨ (splitNegation line).1 = ['!'] := by
  unfold splitNegation
  split
  · exact .inr rfl
  · exact .inl rfl

/-- What becomes of a line of a file in the directory `lead`, or deeper at `more`: nothing, or its
pattern after the directory. -/
theorem lineFromBelow_cases (hhead : t.head? ≠ some '/') (hlast : t.getLast? ≠ some '/') :
    (∀ scope, IgnoreRule.parse? (lineFromBelow line t) scope = none) ∨
      (∃ mark rest, (mark = [] ∨ mark = ['!']) ∧
        lineFromBelow line t = mark ++ (t ++ "/**/".toList ++ rest)) ∨
      ∃ mark rest, (mark = [] ∨ mark = ['!']) ∧
        (splitNegation (dropCarriageReturns line)).2 = '/' :: rest ∧
        lineFromBelow line t = mark ++ ('/' :: (t ++ '/' :: rest)) := by
  have htrim : trim (· = '/') t = t :=
    trim_eq_self (by rintro c hc; simpa using fun h : c = '/' => hhead (h ▸ hc))
      (by rintro c hc; simpa using fun h : c = '/' => hlast (h ▸ hc))
  have hmark := mark_splitNegation (dropCarriageReturns line)
  unfold lineFromBelow
  dsimp only
  rw [htrim]
  split
  · next hblank =>
    refine .inl fun scope => ?_
    rw [IgnoreRule.parse?_dropCarriageReturns, IgnoreRule.parse?]
    exact if_pos hblank
  · split
    · next rest heq =>
      refine .inr (.inr ⟨_, rest, hmark, heq, ?_⟩)
      rw [List.append_assoc, List.cons_append]
    · refine .inr (.inl ⟨_, dropHere (splitNegation (dropCarriageReturns line)).2, hmark, ?_⟩)
      rw [List.append_assoc, List.append_assoc, List.append_assoc]

/-- A line of a file in a directory that is read as itself, a bare slash excepted. -/
theorem staysBelow_lineFromBelow (hlead : ReadAsItself lead) (hlast : lead.getLast? ≠ some '/')
    (hline : isBareSlash line = false) : StaysBelow (toUtf8 lead) (lineFromBelow line lead) := by
  rcases lineFromBelow_cases hlead.head?_ne hlast with hnone | ⟨mark, rest, hmark, heq⟩ |
    ⟨mark, rest, hmark, hrest, heq⟩
  · exact .of_none hnone
  · have hstays := staysBelow_of_readAsItself hlead hmark (.inl rfl)
      (by decide : isBlank '*' = false) "*".toList ('/' :: rest)
    rw [heq]
    simpa using hstays
  · obtain ⟨c, s, u, rfl, hc⟩ : ∃ c s u, rest = s ++ c :: u ∧ isBlank c = false := by
      rw [isBareSlash, hrest] at hline
      obtain ⟨c, hc, hblank⟩ := List.all_eq_false.mp hline
      obtain ⟨s, u, rfl⟩ := List.append_of_mem hc
      exact ⟨c, s, u, rfl, by simpa using hblank⟩
    have hstays := staysBelow_of_readAsItself hlead hmark (.inr rfl) hc s u
    rw [heq]
    simpa using hstays

/-- A line of a file deeper than a directory that is read as itself. -/
theorem staysBelow_lineFromBelow_deeper (hlead : ReadAsItself lead)
    (hlast : (lead ++ '/' :: more).getLast? ≠ some '/') (line : Text) :
    StaysBelow (toUtf8 lead) (lineFromBelow line (lead ++ '/' :: more)) := by
  have hhead : (lead ++ '/' :: more).head? ≠ some '/' := by
    obtain ⟨c, rest, rfl, -, hslash⟩ := hlead.starts
    simpa using hslash
  rcases lineFromBelow_cases hhead hlast with hnone | ⟨mark, rest, hmark, heq⟩ |
    ⟨mark, rest, hmark, -, heq⟩
  · exact .of_none hnone
  · have hstays := staysBelow_of_readAsItself hlead hmark (.inl rfl)
      (by decide : isBlank '*' = false) (more ++ "/*".toList) ('/' :: rest)
    rw [heq]
    simpa using hstays
  · have hstays := staysBelow_of_readAsItself hlead hmark (.inr rfl)
      (by decide : isBlank '/' = false) more rest
    rw [heq]
    simpa using hstays

end Typesweep
