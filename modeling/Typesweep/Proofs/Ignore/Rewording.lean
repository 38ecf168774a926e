import Mathlib.Data.Bool.AllAny
import Typesweep.Proofs.Ignore.Spelling
import Typesweep.Proofs.Path.Shown

/-!
# Reworded lines

A line of a nested rule file is read in the directory of the file, its reworded form in the working
directory above it. Both say the same about what lies in the directory: an anchored pattern `/x`
becomes `/dir/x`, and a name, which holds at every depth, becomes `dir/**/x`.

This fails for the patterns of which nothing but `**/` is left once they are spelled out, such as
an escaped slash: by itself such a pattern matches everything, behind a directory nothing.

* `Meaning.MovedInto`: two lines that say the same, one in a directory, one in the directory above.
* `movedInto_lineFromBelow`: a line and its reworded form.
* `not_movedInto_lineFromBelow_slash`: the escaped slash.
-/

namespace Typesweep

open Text
open RawText (slash)

variable {line lead t dir : Text} {c : Char}

namespace IgnorePattern

theorem verdict?_singleton (p : IgnorePattern) (path : Path) (isDir : Bool) :
    verdict? [p] path isDir =
      if p.accepts path.raw isDir then some (!p.negated) else none := by
  unfold verdict?
  simp only [List.reverse_singleton, List.find?_singleton]
  split <;> rfl

theorem verdict?_literals {negated dirsOnly : Bool} {q : Path} (hq : q.raw ≠ toUtf8 lead)
    (isDir : Bool) :
    verdict? [⟨lead.map .literal, negated, dirsOnly⟩] q isDir = none := by
  have hno : IgnoreGlob.accepts (lead.map .literal) q.raw = false := by
    by_contra h
    exact hq (IgnoreGlob.eq_of_accepts_literals (by simpa using h))
  rw [verdict?_singleton, IgnorePattern.accepts, hno, Bool.and_false, if_neg (by simp)]

/-- What a line means moved into a directory: about the paths there, the rule in the directory above
says what the rule in the directory says about them. -/
def Meaning.MovedInto (dir : Path) : Meaning → Meaning → Prop
  | .invalid, .invalid => True
  | .rule p, .rule p' =>
    ∀ (q : Path) (isDir : Bool), q.raw ≠ [] → q.isAbsolute = false →
      verdict? [p'] (dir.join q) isDir = verdict? [p] q isDir
  | _, _ => False

/-- A relative path in a directory that is a text. -/
theorem raw_join_ofText {q : Path} (hne : dir ≠ []) (hlast : dir.getLast? ≠ some '/')
    (hq : q.isAbsolute = false) :
    ((Path.ofText dir).join q).raw = toUtf8 dir ++ slash :: q.raw := by
  refine Path.raw_join ?_ ?_ hq
  · rwa [Ne, ← Path.text_eq_nil_iff, Path.text_ofText]
  · rwa [Ne, ← Path.getLast?_text_iff, Path.text_ofText]

theorem Meaning.movedInto_ofTokens {negated dirsOnly : Bool}
    {read read' : Option (List IgnoreGlob.Token)} (hne : dir ≠ [])
    (hlast : dir.getLast? ≠ some '/')
    (h : Option.Rel (fun tokens tokens' => ∀ u : RawText, u ≠ [] →
      IgnoreGlob.accepts tokens' (toUtf8 dir ++ slash :: u) =
        IgnoreGlob.accepts tokens u) read read') :
    (Meaning.ofTokens negated dirsOnly read).MovedInto (.ofText dir)
      (.ofTokens negated dirsOnly read') := by
  cases h with
  | none => trivial
  | some haccepts =>
    intro q isDir hq hrelative
    rw [verdict?_singleton, verdict?_singleton, raw_join_ofText hne hlast hrelative,
      IgnorePattern.accepts, IgnorePattern.accepts, haccepts q.raw hq]

/-- The pattern as it is put behind a directory: with `**/` before it, unless it is anchored. -/
def behindSlash (anchored : Bool) (pattern : Text) : Text :=
  if anchored then pattern else "**/".toList ++ pattern

theorem spellOut_behindSlash {anchored : Bool} {pattern : Text}
    (hshape : anchored = true ∨ '/' ∉ pattern) (hstars : pattern ≠ "**".toList) (b : Bool)
    (lead : Text) :
    spellOut b (lead ++ '/' :: behindSlash anchored pattern) =
      lead ++ '/' :: spellOut anchored pattern := by
  have hne : behindSlash anchored pattern ≠ "**".toList := by
    unfold behindSlash
    split
    · exact hstars
    · simp
  have hspelled : spellOut true (behindSlash anchored pattern) = spellOut anchored pattern := by
    cases anchored with
    | true => rfl
    | false =>
      have hslash : pattern.contains '/' = false := by simpa using hshape
      simp only [spellOut, behindSlash, hslash, hstars, Bool.true_or, Bool.or_false, decide_false,
        if_true, Bool.false_eq_true, if_false]
  rw [spellOut_append_slash b lead hne, hspelled]

/-- Behind a directory the pattern matches what it matches by itself. -/
theorem accepts_behindSlash {anchored : Bool} {pattern : Text}
    (hlead : ∀ c ∈ lead, IgnoreGlob.IsPlain c) (hshape : anchored = true ∨ '/' ∉ pattern)
    (hbare : IgnoreGlob.isBareComponents (spellOut anchored pattern) = false) (b : Bool) :
    Option.Rel (fun tokens tokens' => ∀ u : RawText, u ≠ [] →
        IgnoreGlob.accepts tokens' (toUtf8 lead ++ slash :: u) = IgnoreGlob.accepts tokens u)
      (IgnoreGlob.parse (spellOut anchored pattern))
      (IgnoreGlob.parse (spellOut b (lead ++ '/' :: behindSlash anchored pattern))) := by
  by_cases hstars : pattern = "**".toList
  · subst hstars
    have hrows : ∀ t, t = "**/*".toList ∨ t = "**/**/*".toList →
        IgnoreGlob.parse (lead ++ '/' :: t) =
          some (IgnoreGlob.behind lead [.leadingComponents, .row]) := by
      rintro t (rfl | rfl)
      · exact (IgnoreGlob.parse_append_slash hlead rfl (by decide)).1
      · exact (IgnoreGlob.parse_append_slash hlead rfl (by decide)).1
    have hread : IgnoreGlob.parse (spellOut b (lead ++ '/' :: behindSlash anchored "**".toList)) =
        some (IgnoreGlob.behind lead [.leadingComponents, .row]) := by
      cases anchored with
      | true =>
        rw [← hrows _ (.inl rfl)]
        exact congrArg _ (spellOut_append_stars b lead)
      | false =>
        rw [← hrows _ (.inr rfl)]
        have hspelled := spellOut_append_stars b (lead ++ "/**".toList)
        rw [List.append_assoc, List.append_assoc] at hspelled
        exact congrArg _ hspelled
    have hstars : spellOut anchored "**".toList = "**".toList := by cases anchored <;> rfl
    rw [hread, hstars]
    refine .some fun u _ => ?_
    rw [IgnoreGlob.accepts_behind (by simp), IgnoreGlob.accepts_leadingComponents_row]
    rfl
  · rw [spellOut_behindSlash hshape hstars]
    obtain ⟨hparse, hne⟩ := IgnoreGlob.parse_append_slash hlead hbare
      (not_endsInside_spellOut anchored fun h => hstars (spellOut_eq_stars h))
    rw [hparse]
    cases hread : IgnoreGlob.parse (spellOut anchored pattern) with
    | none => exact .none
    | some tokens =>
      refine .some fun u _ => IgnoreGlob.accepts_behind ?_ u
      rintro rfl
      exact hne hread

end IgnorePattern

/-! ## The directory -/

/-- A relative directory whose name can stand in a rule as it is. -/
structure PlainDirectory (dir : Text) : Prop where
  ne : dir ≠ []
  relative : dir.head? ≠ some '/'
  plain : ∀ c ∈ dir, IgnoreGlob.IsPlain c
  /-- Its first character makes a rule neither negated nor a comment. -/
  unmarked : dir.head? ≠ some '!' ∧ dir.head? ≠ some '#'

namespace PlainDirectory

theorem trim_eq (h : PlainDirectory dir) :
    trim (· = '/') dir = trimEnd (· = '/') dir := by
  have hslash := h.relative
  obtain ⟨first, rest, htext⟩ := List.exists_cons_of_ne_nil h.ne
  rw [htext, List.head?_cons] at hslash
  rw [trim, trimStart, htext, List.dropWhile_cons_of_neg (by simpa using hslash)]

theorem head?_trim (h : PlainDirectory dir) :
    (trim (· = '/') dir).head? = dir.head? := by
  have hslash := h.relative
  obtain ⟨slashes, heq, hslashes⟩ := exists_trimEnd_append (· = '/') dir
  rw [h.trim_eq]
  cases hkept : trimEnd (· = '/') dir with
  | nil =>
    rw [hkept, List.nil_append] at heq
    obtain ⟨first, rest, htext⟩ := List.exists_cons_of_ne_nil h.ne
    have hfirst := hslashes first (by rw [← heq, htext]; exact List.mem_cons_self)
    rw [htext, List.head?_cons] at hslash
    exact absurd (by simpa using hfirst) hslash
  | cons d kept => rw [heq, hkept]; rfl

theorem plain_trim (h : PlainDirectory dir) :
    ∀ c ∈ trim (· = '/') dir, IgnoreGlob.IsPlain c := by
  intro c hc
  rw [h.trim_eq] at hc
  exact h.plain c ((prefix_trimEnd _ _).mem hc)

theorem readAsItself (h : PlainDirectory dir) : ReadAsItself (trim (· = '/') dir) where
  ordinary c hc := (h.plain_trim c hc).1
  starts := by
    have hslash := h.relative
    have hbang := h.unmarked.1
    have hne : (trim (· = '/') dir).head? ≠ none := by
      rw [h.head?_trim]
      simpa using h.ne
    obtain ⟨first, hfirst⟩ := Option.ne_none_iff_exists'.mp hne
    obtain ⟨kept, hkept⟩ := List.head?_eq_some_iff.mp hfirst
    rw [← h.head?_trim, hfirst] at hslash hbang
    exact ⟨first, kept, hkept, by simpa using hbang, by simpa using hslash⟩

theorem head?_trim_ne (h : PlainDirectory dir) : (trim (· = '/') dir).head? ≠ some '#' :=
  h.head?_trim ▸ h.unmarked.2

theorem trim_ne_nil (h : PlainDirectory dir) : trim (· = '/') dir ≠ [] := by
  obtain ⟨first, rest, heq, -, -⟩ := h.readAsItself.starts
  rw [heq]
  exact List.cons_ne_nil _ _

theorem getLast?_trim (h : PlainDirectory dir) :
    (trim (· = '/') dir).getLast? ≠ some '/' := by
  intro hlast
  rw [h.trim_eq] at hlast
  exact absurd (drop_of_getLast?_trimEnd hlast) (by decide)

end PlainDirectory

/-! ## The lines -/

theorem dropHere_eq_self (h : ∀ rest, t ≠ '.' :: '/' :: rest) : dropHere t = t := by
  unfold dropHere
  split
  · exact absurd rfl (h _)
  · rfl

theorem lineFromBelow_anchored {mark rest : Text} (dir : Text)
    (hrule : isBlankOrComment (dropCarriageReturns line) = false)
    (hsplit : splitNegation (dropCarriageReturns line) = (mark, '/' :: rest)) :
    lineFromBelow line dir = mark ++ (['/'] ++ (trim (· = '/') dir ++ '/' :: rest)) := by
  unfold lineFromBelow
  simp only [hrule, hsplit, Bool.false_eq_true, if_false]
  simp

theorem lineFromBelow_name {mark name : Text} (dir : Text)
    (hrule : isBlankOrComment (dropCarriageReturns line) = false)
    (hsplit : splitNegation (dropCarriageReturns line) = (mark, name))
    (hslash : name.head? ≠ some '/') (hhere : dropHere name = name) :
    lineFromBelow line dir =
      mark ++ ([] ++ (trim (· = '/') dir ++ '/' :: ("**/".toList ++ name))) := by
  unfold lineFromBelow
  simp only [hrule, hsplit, Bool.false_eq_true, if_false]
  split
  · exact absurd rfl hslash
  · rw [hhere]
    simp

/-- A line with a directory before its pattern carries a rule. -/
theorem exists_rule_behind {mark anchor rest : Text} (hlead : ReadAsItself lead)
    (hhash : lead.head? ≠ some '#') (hmark : mark = [] ∨ mark = ['!'])
    (hanchor : anchor = [] ∨ anchor = ['/']) (hlast : rest.getLast? ≠ some '\r') (scope : Path) :
    ∃ rule, IgnoreRule.parse? (mark ++ (anchor ++ (lead ++ '/' :: rest))) scope = some rule ∧
      rule.line = mark ++ (anchor ++ (lead ++ '/' :: rest)) := by
  generalize hline : mark ++ (anchor ++ (lead ++ '/' :: rest)) = line
  have hkept : dropCarriageReturns line = line := by
    have hend : line.getLast? ≠ some '\r' := by
      rw [← hline, ← List.append_assoc, ← List.append_assoc, List.getLast?_append]
      cases rest with
      | nil => simp
      | cons d rest =>
        rw [List.getLast?_cons_cons, List.getLast?_eq_some_getLast (List.cons_ne_nil _ _)] at *
        simpa using hlast
    exact trimEnd_of_getLast? fun c hc => by simpa using fun h : c = '\r' => hend (h ▸ hc)
  have hcomment : isBlankOrComment line = false := by
    have hhead : line.head? ≠ some '#' := by
      obtain ⟨c, lead, rfl, -, -⟩ := hlead.starts
      have hfirst : c ≠ '#' := by simpa using hhash
      rw [← hline]
      rcases hmark with rfl | rfl <;> rcases hanchor with rfl | rfl <;> simp [hfirst]
    have hslash : '/' ∈ line := by simp [← hline]
    rw [isBlankOrComment, Bool.or_eq_false_iff, decide_eq_false_iff_not, List.all_eq_false]
    exact ⟨hhead, '/', hslash, by decide⟩
  have hparse : ∃ rule, IgnoreRule.parse? line scope = some rule := by
    rw [IgnoreRule.parse?, hkept]
    dsimp only
    rw [hcomment]
    exact ⟨_, rfl⟩
  obtain ⟨rule, hrule⟩ := hparse
  exact ⟨rule, hrule, by rw [IgnoreRule.line_of_parse? hrule, hkept]⟩

theorem splitNegation_append (line : Text) :
    (splitNegation line).1 ++ (splitNegation line).2 = line := by
  unfold splitNegation
  split <;> rfl

theorem getLast?_of_splitNegation {mark pattern : Text}
    (h : splitNegation (dropCarriageReturns line) = (mark, pattern)) :
    pattern.getLast? ≠ some '\r' := by
  intro hlast
  have hline := splitNegation_append (dropCarriageReturns line)
  rw [h] at hline
  have hend : (dropCarriageReturns line).getLast? = some '\r' := by
    rw [← hline, List.getLast?_append, hlast]
    rfl
  exact absurd (drop_of_getLast?_trimEnd hend) (by decide)

/-- The reworded form of an anchored line. -/
theorem movedInto_anchored (hdir : PlainDirectory dir) {mark rest : Text} (scope : Path)
    (hrule : isBlankOrComment (dropCarriageReturns line) = false)
    (hsplit : splitNegation (dropCarriageReturns line) = (mark, '/' :: rest)) (hne : rest ≠ [])
    (hbare : IgnoreGlob.isBareComponents (IgnorePattern.globText (dropCarriageReturns line)) =
      false) :
    ∃ rule, IgnoreRule.parse? (lineFromBelow line dir) scope = some rule ∧
      (IgnorePattern.ofLine (dropCarriageReturns line)).MovedInto (.ofText (trim (· = '/') dir))
        (IgnorePattern.ofLine rule.line) := by
  have hmark : mark = [] ∨ mark = ['!'] := by
    simpa [hsplit] using mark_splitNegation (dropCarriageReturns line)
  have hline : dropCarriageReturns line = mark ++ '/' :: rest := by
    simpa [hsplit] using (splitNegation_append (dropCarriageReturns line)).symm
  have hlast : rest.getLast? ≠ some '\r' := by
    obtain ⟨first, rest, rfl⟩ := List.exists_cons_of_ne_nil hne
    rw [← List.getLast?_cons_cons]
    exact getLast?_of_splitNegation hsplit
  obtain ⟨rest', htrim⟩ :=
    IgnorePattern.exists_trimLine_eq (by decide : isBlank '/' = false) [] rest
  rw [List.nil_append, List.nil_append] at htrim
  obtain ⟨rule, hparse, hreworded⟩ := exists_rule_behind hdir.readAsItself hdir.head?_trim_ne hmark
    (.inr rfl) hlast scope
  rw [lineFromBelow_anchored dir hrule hsplit]
  refine ⟨rule, hparse, ?_⟩
  obtain ⟨hwritten, hglob⟩ := IgnorePattern.ofLine_anchored hmark htrim
  rw [hreworded, hline]
  by_cases hempty : rest' = []
  · -- Only blanks are left of the pattern: neither rule matches anything below the directory.
    subst hempty
    have hempty : IgnorePattern.ofLine (mark ++ '/' :: rest) =
        .rule ⟨([] : Text).map .literal, decide (mark ≠ []), false⟩ := by
      rw [hwritten, hglob]
      rfl
    rw [hempty, IgnorePattern.ofLine_behind_blanks hdir.readAsItself hdir.plain_trim
      hdir.head?_trim_ne hmark htrim]
    intro q isDir hq hrelative
    have hjoin := IgnorePattern.raw_join_ofText hdir.trim_ne_nil hdir.getLast?_trim hrelative
    have hq : q.raw ≠ toUtf8 [] := hq
    rw [IgnorePattern.verdict?_literals hq, IgnorePattern.verdict?_literals (by simp [hjoin])]
  · rw [hline, hglob] at hbare
    rw [hwritten, hglob, IgnorePattern.ofLine_behind hdir.readAsItself hdir.head?_trim_ne hmark
      (.inr rfl) htrim, IgnorePattern.splitEnd_append_slash _ hempty]
    exact IgnorePattern.Meaning.movedInto_ofTokens hdir.trim_ne_nil hdir.getLast?_trim
      (IgnorePattern.accepts_behindSlash hdir.plain_trim (.inl rfl) hbare true)

/-- The reworded form of a line whose pattern is a name. -/
theorem movedInto_name (hdir : PlainDirectory dir) {mark name : Text} (scope : Path)
    (hrule : isBlankOrComment (dropCarriageReturns line) = false)
    (hsplit : splitNegation (dropCarriageReturns line) = (mark, name))
    (hhead : name.head? ≠ some '/') (hhere : dropHere name = name) (hc : c ∈ name)
    (hblank : isBlank c = false)
    (hslash : '/' ∉ (IgnorePattern.splitEnd (IgnorePattern.trimLine name)).2)
    (hbare : IgnoreGlob.isBareComponents (IgnorePattern.globText (dropCarriageReturns line)) =
      false) :
    ∃ rule, IgnoreRule.parse? (lineFromBelow line dir) scope = some rule ∧
      (IgnorePattern.ofLine (dropCarriageReturns line)).MovedInto (.ofText (trim (· = '/') dir))
        (IgnorePattern.ofLine rule.line) := by
  have hmark : mark = [] ∨ mark = ['!'] := by
    simpa [hsplit] using mark_splitNegation (dropCarriageReturns line)
  have hline : dropCarriageReturns line = mark ++ name := by
    simpa [hsplit] using (splitNegation_append (dropCarriageReturns line)).symm
  have hcomment : (mark ++ name).head? ≠ some '#' := by
    rw [← hline]
    simp only [isBlankOrComment, Bool.or_eq_false_iff, decide_eq_false_iff_not] at hrule
    exact hrule.1
  have hbang : mark = [] → name.head? ≠ some '!' := by
    rintro rfl hfirst
    obtain ⟨rest, rfl⟩ := List.head?_eq_some_iff.mp hfirst
    rw [hline] at hsplit
    cases hsplit
  have hne : name ≠ [] := List.ne_nil_of_mem hc
  have hlast : ("**/".toList ++ name).getLast? ≠ some '\r' := by
    rw [List.getLast?_append_of_ne_nil _ hne]
    exact getLast?_of_splitNegation hsplit
  have htrim : IgnorePattern.trimLine ('/' :: ("**/".toList ++ name)) =
      '/' :: ("**/".toList ++ IgnorePattern.trimLine name) :=
    IgnorePattern.trimLine_append hc hblank "/**/".toList
  obtain ⟨rule, hparse, hreworded⟩ := exists_rule_behind hdir.readAsItself hdir.head?_trim_ne hmark
    (.inl rfl) hlast scope
  rw [lineFromBelow_name dir hrule hsplit hhead hhere]
  refine ⟨rule, hparse, ?_⟩
  obtain ⟨hwritten, hkept⟩ := IgnorePattern.ofLine_name hmark hcomment hc hblank hhead hbang hslash
  have hne' : IgnorePattern.trimLine name ≠ [] :=
    List.ne_nil_of_mem (IgnorePattern.mem_trimLine hc hblank)
  rw [hline] at hbare ⊢
  rw [hwritten, hreworded, IgnorePattern.ofLine_behind hdir.readAsItself hdir.head?_trim_ne hmark
    (.inl rfl) htrim, IgnorePattern.splitEnd_append_slash _ (by simp)]
  have hbehind :=
    IgnorePattern.accepts_behindSlash hdir.plain_trim (.inr hslash) (hkept hbare) false
  have hend : IgnorePattern.splitEnd ("**/".toList ++ IgnorePattern.trimLine name) =
      ((IgnorePattern.splitEnd (IgnorePattern.trimLine name)).1,
        "**/".toList ++ (IgnorePattern.splitEnd (IgnorePattern.trimLine name)).2) :=
    IgnorePattern.splitEnd_append_slash "**".toList hne'
  rw [hend]
  exact IgnorePattern.Meaning.movedInto_ofTokens hdir.trim_ne_nil hdir.getLast?_trim hbehind

/-- The patterns that say where they hold: an anchored one in its own directory, a name at every
depth below it. -/
inductive IsScoped : Text → Prop
  | anchored {rest : Text} (hne : rest ≠ []) : IsScoped ('/' :: rest)
  | name {name : Text} (hslash : '/' ∉ name) (hblank : name.all isBlank = false) : IsScoped name
  | directory {name : Text} (hslash : '/' ∉ name) (hne : name ≠ []) (hhere : name ≠ ['.']) :
      IsScoped (name ++ ['/'])

/-- A line of a file in a directory, reworded, means in the directory above what it means as it is
written in its own. -/
theorem movedInto_lineFromBelow (hdir : PlainDirectory dir) (line : Text) (scope : Path)
    (hrule : isBlankOrComment (dropCarriageReturns line) = false)
    (hscoped : IsScoped (splitNegation (dropCarriageReturns line)).2)
    (hbare : IgnoreGlob.isBareComponents (IgnorePattern.globText (dropCarriageReturns line)) =
      false) :
    ∃ rule, IgnoreRule.parse? (lineFromBelow line dir) scope = some rule ∧
      (IgnorePattern.ofLine (dropCarriageReturns line)).MovedInto (.ofText (trim (· = '/') dir))
        (IgnorePattern.ofLine rule.line) := by
  generalize hsplit : splitNegation (dropCarriageReturns line) = parts at hscoped
  obtain ⟨mark, pattern⟩ := parts
  dsimp only at hscoped
  cases hscoped with
  | anchored hne => exact movedInto_anchored hdir scope hrule hsplit hne hbare
  | name hslash hblank =>
    obtain ⟨c, hc, hblank⟩ := List.all_eq_false.mp hblank
    have hhead : pattern.head? ≠ some '/' := fun h => hslash (List.mem_of_head? h)
    have hhere : dropHere pattern = pattern :=
      dropHere_eq_self fun rest heq => hslash (by rw [heq]; simp)
    refine movedInto_name hdir scope hrule hsplit hhead hhere hc (by simpa using hblank) ?_ hbare
    exact IgnorePattern.slash_notMem_splitEnd fun hmem =>
      hslash ((IgnorePattern.prefix_trimLine pattern).mem hmem)
  | @directory name hslash hne hhere =>
    have htrim : IgnorePattern.trimLine (name ++ ['/']) = name ++ ['/'] :=
      IgnorePattern.trimLine_append (List.mem_singleton_self '/') (by decide) name
    have hhead : (name ++ ['/']).head? ≠ some '/' := by
      rw [List.head?_append_of_ne_nil _ hne]
      exact fun h => hslash (List.mem_of_head? h)
    have hkept : dropHere (name ++ ['/']) = name ++ ['/'] := by
      refine dropHere_eq_self fun rest heq => ?_
      match name, hne, hhere, hslash, heq with
      | [c], _, hhere, _, heq => exact hhere (congrArg (fun c => [c]) (List.cons.inj heq).1)
      | c :: d :: name, _, _, hslash, heq =>
        have hd : d = '/' := (List.cons.inj (List.cons.inj heq).2).1
        exact hslash (by simp [hd])
    refine movedInto_name hdir scope hrule hsplit hhead hkept
      (List.mem_append_right name (List.mem_singleton_self '/')) (by decide) ?_ hbare
    rw [htrim]
    exact IgnorePattern.slash_notMem_splitEnd_concat hslash

theorem movedInto_lineFromBelow_class :
    PlainDirectory "pkg/".toList ∧ IsScoped "[ab]*/".toList ∧
      ∃ rule, IgnoreRule.parse? (lineFromBelow "![ab]*/\r".toList "pkg/".toList) ⟨[]⟩ = some rule ∧
        (IgnorePattern.ofLine "![ab]*/".toList).MovedInto (.ofString "pkg")
          (IgnorePattern.ofLine rule.line) := by
  have hdir : PlainDirectory "pkg/".toList :=
    ⟨by decide, by decide, List.all_iff_forall_prop.mp (by decide), by decide⟩
  have hscoped : IsScoped "[ab]*/".toList :=
    .directory (show '/' ∉ "[ab]*".toList by decide) (by decide) (by decide)
  exact ⟨hdir, hscoped, movedInto_lineFromBelow hdir "![ab]*/\r".toList ⟨[]⟩ (by decide) hscoped
    (by decide)⟩

/-- An escaped slash leaves nothing but the stars before the pattern: in its own directory it
matches every directory, reworded none. -/
theorem not_movedInto_lineFromBelow_slash :
    PlainDirectory "pkg".toList ∧ isBlankOrComment "\\/".toList = false ∧
      IsScoped (splitNegation "\\/".toList).2 ∧
      ∃ rule, IgnoreRule.parse? (lineFromBelow "\\/".toList "pkg".toList) ⟨[]⟩ = some rule ∧
        ¬(IgnorePattern.ofLine "\\/".toList).MovedInto (.ofString "pkg")
          (IgnorePattern.ofLine rule.line) := by
  have hscoped : IsScoped "\\/".toList :=
    .directory (show '/' ∉ "\\".toList by decide) (by decide) (by decide)
  have hdir : PlainDirectory "pkg".toList :=
    ⟨by decide, by decide, List.all_iff_forall_prop.mp (by decide), by decide⟩
  refine ⟨hdir, by decide, hscoped, _, rfl, ?_⟩
  intro hmoved
  have hsame := hmoved (.ofString "out") true (by decide) (by decide)
  exact absurd hsame (by decide)

end Typesweep
