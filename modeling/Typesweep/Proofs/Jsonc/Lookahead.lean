import Mathlib.Data.List.Infix
import Typesweep.Jsonc

/-!
# Stripping, looking forward

The scanner notices an extra comma only when it meets the bracket after it, and takes it back out of
what it has written. The same can be said looking forward: a comma is left out if a closing bracket
comes next.

* `closerFollows`, `cleaned`: the forward form.
* `reverse_scan`, `strip_eq_cleaned`: it gives the same for every text.
* `cleaned_line`, `cleaned_block`: what is left of a comment.
-/

namespace Typesweep.Jsonc

variable {c : Char} {t body rest done : Text}

/-- Whether a character ends an array or an object. -/
def isCloser (c : Char) : Bool :=
  c = '\x7d' || c = ']'

/-- Whether a closing bracket or brace comes first, apart from blanks and comments. -/
@[simp] def closerFollows : Mode → Text → Bool
  | _, [] => false
  | .code, '/' :: '/' :: rest => closerFollows .lineComment rest
  | .code, '/' :: '*' :: rest => closerFollows (.blockComment false) rest
  | .code, c :: rest => isCloser c || (Text.isBlank c && closerFollows .code rest)
  | .string, _ => false
  | .escaped, _ => false
  | .lineComment, c :: rest =>
    if c = '\n' then closerFollows .code rest else closerFollows .lineComment rest
  | .blockComment star, c :: rest =>
    if c = '\n' then closerFollows (.blockComment false) rest
    else if star ∧ c = '/' then closerFollows .code rest
    else closerFollows (.blockComment (c = '*')) rest

/-- What is left of a text from some mode on: a comma is left out if a closer follows. -/
@[simp] def cleaned : Mode → Text → Text
  | _, [] => []
  | .code, '/' :: '/' :: rest => cleaned .lineComment rest
  | .code, '/' :: '*' :: rest => ' ' :: cleaned (.blockComment false) rest
  | .code, c :: rest =>
    if c = '"' then '"' :: cleaned .string rest
    else if c = ',' ∧ closerFollows .code rest then cleaned .code rest
    else c :: cleaned .code rest
  | .string, c :: rest =>
    if c = '\\' then c :: cleaned .escaped rest
    else if c = '"' then c :: cleaned .code rest
    else c :: cleaned .string rest
  | .escaped, c :: rest => c :: cleaned .string rest
  | .lineComment, c :: rest =>
    if c = '\n' then c :: cleaned .code rest else cleaned .lineComment rest
  | .blockComment star, c :: rest =>
    if c = '\n' then c :: cleaned (.blockComment false) rest
    else if star ∧ c = '/' then cleaned .code rest
    else cleaned (.blockComment (c = '*')) rest

/-- Whether a comment does not start with `c` before `rest`. -/
def StartsNoComment (c : Char) (rest : Text) : Prop :=
  c = '/' → rest.head? ≠ some '/' ∧ rest.head? ≠ some '*'

theorem startsNoComment_of_ne (h : c ≠ '/') (rest : Text) : StartsNoComment c rest :=
  fun heq => absurd heq h

theorem cleaned_code (h : StartsNoComment c rest) :
    cleaned .code (c :: rest) =
      if c = '"' then '"' :: cleaned .string rest
      else if c = ',' ∧ closerFollows .code rest then cleaned .code rest
      else c :: cleaned .code rest := by
  rw [cleaned]
  · rintro rest hc rfl
    exact (h hc).1 rfl
  · rintro rest hc rfl
    exact (h hc).2 rfl

theorem closerFollows_code (h : StartsNoComment c rest) :
    closerFollows .code (c :: rest) =
      (isCloser c || (Text.isBlank c && closerFollows .code rest)) := by
  rw [closerFollows]
  · rintro rest hc rfl
    exact (h hc).1 rfl
  · rintro rest hc rfl
    exact (h hc).2 rfl

@[simp] theorem closerFollows_string (t : Text) : closerFollows .string t = false := by
  cases t <;> simp

@[simp] theorem closerFollows_escaped (t : Text) : closerFollows .escaped t = false := by
  cases t <;> simp

theorem not_isBlank_of_isCloser (h : isCloser c = true) : Text.isBlank c = false := by
  unfold isCloser at h
  rw [Bool.or_eq_true, decide_eq_true_iff, decide_eq_true_iff] at h
  rcases h with rfl | rfl <;> decide

/-! ## Looking back and looking forward -/

theorem dropComma_cons_blank (h : Text.isBlank c = true) (done : Text) :
    dropComma (c :: done) = c :: dropComma done := by
  unfold dropComma
  rw [List.dropWhile_cons_of_pos h, List.takeWhile_cons_of_pos h]
  split <;> rfl

theorem dropComma_cons_comma (done : Text) : dropComma (',' :: done) = done :=
  rfl

theorem dropComma_cons_of_ne (hblank : Text.isBlank c = false) (hcomma : c ≠ ',') (done : Text) :
    dropComma (c :: done) = c :: done := by
  unfold dropComma
  rw [List.dropWhile_cons_of_neg (by simp [hblank])]
  split
  · next heq => exact absurd (List.cons.inj heq).1 hcomma
  · rfl

/-- The comma that a closer takes back is the one that was written last but for blanks. So what was
written before loses a comma exactly if a closer follows, and nothing else is taken back later. -/
theorem reverse_scan (mode : Mode) (done t : Text) :
    (scan mode done t).reverse =
      (if closerFollows mode t then dropComma done else done).reverse ++ cleaned mode t := by
  fun_induction scan mode done t with
  | case1 => simp
  | case2 done rest ih => exact ih
  | case3 done rest ih =>
    rw [ih, closerFollows, cleaned, dropComma_cons_blank (by decide)]
    split <;> simp
  | case4 done rest hline hblock ih =>
    have hquote : StartsNoComment '"' rest := startsNoComment_of_ne (by decide) rest
    rw [ih, closerFollows_code hquote, cleaned_code hquote]
    simp [isCloser, show Text.isBlank '"' = false by decide]
  | case5 done c rest hline hblock hquote hcloser ih =>
    have hc : isCloser c = true := by simpa [isCloser] using hcloser
    have hcomma : c ≠ ',' := by
      rintro rfl
      simp [isCloser] at hc
    have hplain : StartsNoComment c rest := startsNoComment_of_ne (by
      rintro rfl
      simp [isCloser] at hc) rest
    rw [ih, closerFollows_code hplain, cleaned_code hplain,
      dropComma_cons_of_ne (not_isBlank_of_isCloser hc) hcomma]
    simp [hc, hquote, hcomma]
  | case6 done c rest hline hblock hquote hcloser ih =>
    have hc : isCloser c = false := by simpa [isCloser] using hcloser
    have hplain : StartsNoComment c rest := by
      intro hslash
      cases rest with
      | nil => simp
      | cons d rest =>
        refine ⟨?_, ?_⟩ <;> rintro ⟨⟩
        · exact hline rest hslash rfl
        · exact hblock rest hslash rfl
    rw [ih, closerFollows_code hplain, cleaned_code hplain]
    by_cases hcomma : c = ','
    · subst hcomma
      simp only [dropComma_cons_comma, hc, show Text.isBlank ',' = false by decide]
      cases closerFollows .code rest <;> simp
    · cases hblank : Text.isBlank c with
      | true =>
        rw [dropComma_cons_blank hblank]
        cases closerFollows .code rest <;> simp [hc, hquote, hcomma]
      | false => simp [dropComma_cons_of_ne hblank hcomma, hc, hquote, hcomma]
  | case7 done rest ih => simp [ih]
  | case8 done rest hne ih =>
    rw [ih, dropComma_cons_of_ne (by decide) (by decide)]
    simp
  | case9 done c rest hbackslash hquote ih => simp [ih, hbackslash, hquote]
  | case10 done c rest ih => simp [ih]
  | case11 done rest ih =>
    rw [ih, dropComma_cons_blank (by decide), closerFollows, cleaned]
    cases closerFollows .code rest <;> simp
  | case12 done c rest hline ih => rw [ih, closerFollows, cleaned, if_neg hline, if_neg hline]
  | case13 star done rest ih =>
    rw [ih, dropComma_cons_blank (by decide), closerFollows, cleaned, if_pos rfl, if_pos rfl]
    cases closerFollows (.blockComment false) rest <;> simp
  | case14 star done c rest hline hend ih =>
    rw [ih, closerFollows, cleaned, if_neg hline, if_neg hline, if_pos hend, if_pos hend]
  | case15 star done c rest hline hend ih =>
    rw [ih, closerFollows, cleaned, if_neg hline, if_neg hline, if_neg hend, if_neg hend]

theorem reverse_scan_code (t : Text) : (scan .code [] t).reverse = cleaned .code t := by
  rw [reverse_scan]
  split <;> rfl

theorem strip_mark (t : Text) : strip ('\ufeff' :: t) = cleaned .code t :=
  reverse_scan_code t

theorem strip_eq_cleaned (h : t.head? ≠ some '\ufeff') : strip t = cleaned .code t := by
  unfold strip
  split
  · exact absurd rfl h
  · exact reverse_scan_code t

/-! ## Comments -/

theorem cleaned_lineComment (h : '\n' ∉ body) (t : Text) :
    cleaned .lineComment (body ++ '\n' :: t) = '\n' :: cleaned .code t := by
  induction body with
  | nil => simp
  | cons c body ih =>
    rw [List.mem_cons, not_or] at h
    rw [List.cons_append, cleaned, if_neg (Ne.symm h.1), ih h.2]

theorem closerFollows_lineComment (h : '\n' ∉ body) (t : Text) :
    closerFollows .lineComment (body ++ '\n' :: t) = closerFollows .code t := by
  induction body with
  | nil => simp
  | cons c body ih =>
    rw [List.mem_cons, not_or] at h
    rw [List.cons_append, closerFollows, if_neg (Ne.symm h.1), ih h.2]

theorem lineComment_open (h : '\n' ∉ body) :
    cleaned .lineComment body = [] ∧ closerFollows .lineComment body = false := by
  induction body with
  | nil => simp
  | cons c body ih =>
    rw [List.mem_cons, not_or] at h
    rw [cleaned, closerFollows, if_neg (Ne.symm h.1), if_neg (Ne.symm h.1)]
    exact ih h.2

/-- The newlines of a text: what stripping leaves of a block comment. -/
def newlines (t : Text) : Text :=
  t.filter (· = '\n')

/-- The text in a block comment from some place on, with the star before that place. -/
def afterStar (star : Bool) (body : Text) : Text :=
  if star then '*' :: body else body

/-- A character of a block comment that does not end it: the comment goes on after it. -/
theorem blockComment_step {star : Bool} (h : ¬ ['*', '/'] <:+: afterStar star (c :: body))
    (t : Text) :
    ∃ star', ¬ ['*', '/'] <:+: afterStar star' body ∧
      cleaned (.blockComment star) (c :: t) = newlines [c] ++ cleaned (.blockComment star') t ∧
      closerFollows (.blockComment star) (c :: t) = closerFollows (.blockComment star') t := by
  have hbody : ¬ ['*', '/'] <:+: c :: body := by
    cases star with
    | false => exact h
    | true => exact fun hin => h (hin.trans (List.suffix_cons '*' _).isInfix)
  rw [cleaned, closerFollows]
  by_cases hline : c = '\n'
  · refine ⟨false, fun hin => hbody (hin.trans (List.suffix_cons c _).isInfix), ?_, ?_⟩
    · simp [hline, newlines]
    · rw [if_pos hline]
  · have hend : ¬ (star = true ∧ c = '/') := by
      rintro ⟨rfl, rfl⟩
      exact h (List.prefix_append ['*', '/'] body).isInfix
    refine ⟨decide (c = '*'), ?_, ?_, ?_⟩
    · by_cases hstar : c = '*'
      · subst hstar
        exact hbody
      · rw [afterStar, if_neg (by simpa using hstar)]
        exact fun hin => hbody (hin.trans (List.suffix_cons c _).isInfix)
    · simp [hline, hend, newlines]
    · rw [if_neg hline, if_neg hend]

theorem blockComment_end (star : Bool) (t : Text) :
    cleaned (.blockComment star) ('*' :: '/' :: t) = cleaned .code t ∧
      closerFollows (.blockComment star) ('*' :: '/' :: t) = closerFollows .code t := by
  simp

theorem blockComment_complete {star : Bool} (h : ¬ ['*', '/'] <:+: afterStar star body) (t : Text) :
    cleaned (.blockComment star) (body ++ '*' :: '/' :: t) = newlines body ++ cleaned .code t ∧
      closerFollows (.blockComment star) (body ++ '*' :: '/' :: t) = closerFollows .code t := by
  induction body generalizing star with
  | nil => exact blockComment_end star t
  | cons c body ih =>
    obtain ⟨star', hstar', hcleaned, hfollows⟩ := blockComment_step h (body ++ '*' :: '/' :: t)
    rw [List.cons_append, hcleaned, hfollows, (ih hstar').1, (ih hstar').2, ← List.append_assoc]
    exact ⟨congrArg (· ++ _) (List.filter_append [c] body).symm, rfl⟩

theorem blockComment_open {star : Bool} (h : ¬ ['*', '/'] <:+: afterStar star body) :
    cleaned (.blockComment star) body = newlines body ∧
      closerFollows (.blockComment star) body = false := by
  induction body generalizing star with
  | nil => simp [newlines]
  | cons c body ih =>
    obtain ⟨star', hstar', hcleaned, hfollows⟩ := blockComment_step h body
    rw [hcleaned, hfollows, (ih hstar').1, (ih hstar').2]
    exact ⟨(List.filter_append [c] body).symm, rfl⟩

/-- A complete line comment leaves its newline. -/
theorem cleaned_line (h : '\n' ∉ body) (t : Text) :
    cleaned .code ('/' :: '/' :: (body ++ '\n' :: t)) = '\n' :: cleaned .code t ∧
      closerFollows .code ('/' :: '/' :: (body ++ '\n' :: t)) = closerFollows .code t := by
  rw [cleaned, closerFollows]
  exact ⟨cleaned_lineComment h t, closerFollows_lineComment h t⟩

/-- A complete block comment leaves a space and its newlines. -/
theorem cleaned_block (h : ¬ ['*', '/'] <:+: body) (t : Text) :
    cleaned .code ('/' :: '*' :: (body ++ '*' :: '/' :: t)) =
        ' ' :: (newlines body ++ cleaned .code t) ∧
      closerFollows .code ('/' :: '*' :: (body ++ '*' :: '/' :: t)) = closerFollows .code t := by
  have hbody : ¬ ['*', '/'] <:+: afterStar false body := h
  rw [cleaned, closerFollows, (blockComment_complete hbody t).1]
  exact ⟨rfl, (blockComment_complete hbody t).2⟩

/-- A line comment that is not ended leaves nothing, and no closer follows it. -/
theorem cleaned_openLine (h : '\n' ∉ body) :
    cleaned .code ('/' :: '/' :: body) = [] ∧ closerFollows .code ('/' :: '/' :: body) = false := by
  rw [cleaned, closerFollows]
  exact lineComment_open h

/-- A block comment that is not ended leaves a space and its newlines, and no closer follows it. -/
theorem cleaned_openBlock (h : ¬ ['*', '/'] <:+: body) :
    cleaned .code ('/' :: '*' :: body) = ' ' :: newlines body ∧
      closerFollows .code ('/' :: '*' :: body) = false := by
  have hbody : ¬ ['*', '/'] <:+: afterStar false body := h
  rw [cleaned, closerFollows, (blockComment_open hbody).1]
  exact ⟨rfl, (blockComment_open hbody).2⟩

/-- A text is cut at the first end of a block comment, if there is one in it. -/
theorem exists_blockBody (t : Text) :
    ¬ ['*', '/'] <:+: t ∨
      ∃ body rest, t = body ++ '*' :: '/' :: rest ∧ ¬ ['*', '/'] <:+: body := by
  induction t with
  | nil => exact .inl (by simp)
  | cons c t ih =>
    by_cases hend : ['*', '/'] <+: c :: t
    · obtain ⟨rest, hrest⟩ := hend
      exact .inr ⟨[], rest, hrest.symm, by simp⟩
    · rcases ih with hnone | ⟨body, rest, rfl, hbody⟩
      · exact .inl fun hin => (List.infix_cons_iff.mp hin).elim hend hnone
      · refine .inr ⟨c :: body, rest, rfl, fun hin => ?_⟩
        rcases List.infix_cons_iff.mp hin with hstart | hin
        · exact hend (hstart.trans (List.prefix_append (c :: body) _))
        · exact hbody hin

end Typesweep.Jsonc
