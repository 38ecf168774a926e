import Mathlib.Data.List.Basic
import Mathlib.Data.List.Infix
import Mathlib.Data.List.TakeWhile
import Typesweep.Diagnostic.Reader

/-!
# Cutting a line

What it is to cut a line into the parts of a problem, apart from how the cut is looked for. A line
can have several cuts, since a message may hold what looks like another problem and so may a file;
the one with the shortest file is taken.

* `Parts.IsCut`: the parts are proper and spell the line.
* `splitLine?_eq_some_iff`, `splitLine?_eq_none_iff`: which cut is taken, and when there is none.
* `Parts.IsCut.header_infix`: a cut before the end of another's file leaves its header in that file.
-/

namespace Typesweep.Diagnostic

variable {t rest taken file : Text} {keep : Char → Bool} {p q : Parts}

/-- A non-empty row of decimal digits, of any script. -/
def IsDigits (t : Text) : Prop :=
  t ≠ [] ∧ ∀ c ∈ t, Text.isDecimalDigit c = true

/-- A non-empty row of characters that can be in a code. -/
def IsCode (t : Text) : Prop :=
  t ≠ [] ∧ ∀ c ∈ t, isCodeChar c = true

namespace Parts

/-- What stands between the file and the code: row and column in parentheses, and the word. -/
def header (line column : Text) : Text :=
  '(' :: line ++ ',' :: column ++ "): error ".toList

/-- What stands after the file. -/
def afterFile (p : Parts) : Text :=
  header p.line p.column ++ (p.code ++ (": ".toList ++ p.message))

/-- The line that is put together of the parts. -/
def spelling (p : Parts) : Text :=
  p.file ++ p.afterFile

/-- The parts after the file are of the kinds that the form of a line asks for; a message can be any
text. -/
structure ProperAfterFile (p : Parts) : Prop where
  line : IsDigits p.line
  column : IsDigits p.column
  code : IsCode p.code

/-- The parts are proper and spell the line. -/
structure IsCut (p : Parts) (t : Text) : Prop extends ProperAfterFile p where
  file_ne_nil : p.file ≠ []
  spelling_eq : p.spelling = t

end Parts

/-! ## From the opening parenthesis on -/

theorem after?_eq_some_iff {lead : Text} : Text.after? lead t = some rest ↔ lead ++ rest = t :=
  List.isPrefixOf?_eq_some_iff_append_eq

/-- What is taken is as long as it can be. -/
theorem takeSome?_eq_some_iff :
    takeSome? keep t = some (taken, rest) ↔
      (taken ≠ [] ∧ (∀ c ∈ taken, keep c = true) ∧ ∀ c, rest.head? = some c → keep c = false) ∧
        taken ++ rest = t := by
  unfold takeSome?
  constructor
  · split
    · intro h
      cases h
    · next hne =>
      intro h
      obtain ⟨rfl, rfl⟩ := Prod.mk.inj (Option.some.inj h)
      refine ⟨⟨hne, fun c hc => List.mem_takeWhile_imp hc, fun c hc => ?_⟩,
        List.takeWhile_append_dropWhile⟩
      have hstop := List.head?_dropWhile_not keep t
      rw [hc] at hstop
      exact hstop
  · rintro ⟨⟨hne, hkeep, hstop⟩, rfl⟩
    have htake : rest.takeWhile keep = [] := by
      cases rest with
      | nil => rfl
      | cons c rest => exact List.takeWhile_cons_of_neg (by simp [hstop c rfl])
    have hdrop : rest.dropWhile keep = rest := by
      cases rest with
      | nil => rfl
      | cons c rest => exact List.dropWhile_cons_of_neg (by simp [hstop c rfl])
    rw [List.takeWhile_append_of_pos hkeep, List.dropWhile_append_of_pos hkeep, htake, hdrop,
      List.append_nil]
    split
    · exact absurd rfl hne
    · rfl

theorem splitRest?_eq_some_iff :
    splitRest? file t = some p ↔ p.file = file ∧ p.ProperAfterFile ∧ p.afterFile = t := by
  simp only [splitRest?, Option.bind_eq_bind, Option.bind_eq_some_iff, after?_eq_some_iff,
    Prod.exists, takeSome?_eq_some_iff]
  constructor
  · rintro ⟨_, rfl, line, _, ⟨⟨hline, hlines, -⟩, rfl⟩, _, rfl, column, _,
      ⟨⟨hcolumn, hcolumns, -⟩, rfl⟩, _, rfl, code, _, ⟨⟨hcode, hcodes, -⟩, rfl⟩, message, rfl, hp⟩
    cases hp
    exact ⟨rfl, ⟨⟨hline, hlines⟩, ⟨hcolumn, hcolumns⟩, ⟨hcode, hcodes⟩⟩,
      by simp [Parts.afterFile, Parts.header]⟩
  · rintro ⟨rfl, hproper, rfl⟩
    -- After each row of characters stands one that cannot go on with it.
    have hline : Text.isDecimalDigit ',' = false := by decide
    have hcolumn : Text.isDecimalDigit ')' = false := by decide
    have hcode : isCodeChar ':' = false := by decide
    refine ⟨_, by simp [Parts.afterFile, Parts.header], p.line, _,
      ⟨⟨hproper.line.1, hproper.line.2, ?_⟩, rfl⟩, _, rfl, p.column, _,
      ⟨⟨hproper.column.1, hproper.column.2, ?_⟩, rfl⟩, _, rfl, p.code, _,
      ⟨⟨hproper.code.1, hproper.code.2, ?_⟩, rfl⟩, p.message, rfl, rfl⟩
    · rintro c ⟨⟩
      exact hline
    · rintro c ⟨⟩
      exact hcolumn
    · rintro c ⟨⟩
      exact hcode

/-- What stands after the file can be cut in one way only. -/
theorem splitRest?_afterFile (hp : p.ProperAfterFile) : splitRest? p.file p.afterFile = some p :=
  splitRest?_eq_some_iff.mpr ⟨rfl, hp, rfl⟩

/-! ## The shortest file -/

theorem Parts.eq_of_length_file (h : p.spelling = file ++ t)
    (hlength : p.file.length = file.length) : p.file = file ∧ p.afterFile = t :=
  List.append_inj h hlength

/-- Two cuts of one line are the same if their files are of the same length. -/
theorem Parts.IsCut.eq_of_length_file (hp : p.IsCut t) (hq : q.IsCut t)
    (hlength : q.file.length = p.file.length) : q = p := by
  obtain ⟨hfile, hafter⟩ :=
    Parts.eq_of_length_file (hq.spelling_eq.trans hp.spelling_eq.symm) hlength
  have hread := splitRest?_afterFile hq.toProperAfterFile
  rw [hfile, hafter, splitRest?_afterFile hp.toProperAfterFile] at hread
  exact (Option.some.inj hread).symm

/-- A cut that is not here is further on. -/
theorem length_lt_of_splitRest?_eq_none {done : Text} (hnone : splitRest? done.reverse t = none)
    (hq : q.ProperAfterFile) (hspelling : q.spelling = done.reverse ++ t)
    (hle : done.length ≤ q.file.length) : done.length < q.file.length := by
  refine Nat.lt_of_le_of_ne hle fun heq => ?_
  obtain ⟨hfile, hafter⟩ :=
    Parts.eq_of_length_file hspelling (by rw [List.length_reverse]; exact heq.symm)
  have hread := splitRest?_afterFile hq
  rw [hfile, hafter, hnone] at hread
  cases hread

theorem splitFrom?_eq_none {done : Text} (h : splitFrom? done t = none) (hq : q.ProperAfterFile)
    (hspelling : q.spelling = done.reverse ++ t) : q.file.length < done.length := by
  induction t generalizing done with
  | nil =>
    have hlength : q.file.length + q.afterFile.length = done.length := by
      rw [← List.length_append, ← Parts.spelling, hspelling, List.append_nil, List.length_reverse]
    have hafter : 0 < q.afterFile.length := Nat.zero_lt_succ _
    omega
  | cons c t ih =>
    rw [splitFrom?] at h
    split at h
    · cases h
    · next hnone =>
      have hlt : q.file.length < (c :: done).length := ih h (by simpa using hspelling)
      rw [List.length_cons, Nat.lt_succ_iff] at hlt
      refine Nat.lt_of_le_of_ne hlt fun heq => ?_
      exact absurd (length_lt_of_splitRest?_eq_none hnone hq hspelling heq.ge) heq.not_gt

theorem splitFrom?_eq_some {done : Text} (h : splitFrom? done t = some p) :
    (p.ProperAfterFile ∧ p.spelling = done.reverse ++ t ∧ done.length ≤ p.file.length) ∧
      ∀ q : Parts, q.ProperAfterFile → q.spelling = done.reverse ++ t →
        done.length ≤ q.file.length → p.file.length ≤ q.file.length := by
  induction t generalizing done with
  | nil => cases h
  | cons c t ih =>
    rw [splitFrom?] at h
    split at h
    · next hsome =>
      obtain ⟨hfile, hproper, hafter⟩ := splitRest?_eq_some_iff.mp (hsome.trans h)
      have hlength : p.file.length = done.length := by rw [hfile, List.length_reverse]
      exact ⟨⟨hproper, by rw [Parts.spelling, hfile, hafter], hlength.ge⟩,
        fun q _ _ hle => hlength.trans_le hle⟩
    · next hnone =>
      obtain ⟨⟨hproper, hspelling, hle⟩, hmin⟩ := ih h
      refine ⟨⟨hproper, by simpa using hspelling, Nat.le_of_succ_le hle⟩, fun q hq hs hle => ?_⟩
      exact hmin q hq (by simpa using hs) (length_lt_of_splitRest?_eq_none hnone hq hs hle)

theorem splitLine?_eq_none_iff : splitLine? t = none ↔ ∀ p : Parts, ¬p.IsCut t := by
  cases t with
  | nil =>
    refine ⟨fun _ p hp => hp.file_ne_nil ?_, fun _ => rfl⟩
    exact (List.append_eq_nil_iff.mp hp.spelling_eq).1
  | cons c t =>
    constructor
    · intro hnone p hp
      have hlt : p.file.length < List.length [c] :=
        splitFrom?_eq_none hnone hp.toProperAfterFile hp.spelling_eq
      exact hp.file_ne_nil (List.length_eq_zero_iff.mp (Nat.lt_one_iff.mp hlt))
    · intro hcut
      refine Option.eq_none_iff_forall_ne_some.mpr fun p hp => ?_
      obtain ⟨⟨hproper, hspelling, hle⟩, -⟩ := splitFrom?_eq_some hp
      exact hcut p ⟨hproper, List.ne_nil_of_length_pos hle, hspelling⟩

/-- Of all cuts of a line the one with the shortest file is taken. -/
theorem splitLine?_eq_some_iff :
    splitLine? t = some p ↔
      p.IsCut t ∧ ∀ q : Parts, q.IsCut t → p.file.length ≤ q.file.length := by
  have hsound : ∀ p, splitLine? t = some p →
      p.IsCut t ∧ ∀ q : Parts, q.IsCut t → p.file.length ≤ q.file.length := by
    intro p hp
    cases t with
    | nil => cases hp
    | cons c t =>
      obtain ⟨⟨hproper, hspelling, hle⟩, hmin⟩ := splitFrom?_eq_some hp
      exact ⟨⟨hproper, List.ne_nil_of_length_pos hle, hspelling⟩, fun q hq =>
        hmin q hq.toProperAfterFile hq.spelling_eq (List.length_pos_iff.mpr hq.file_ne_nil)⟩
  refine ⟨hsound p, ?_⟩
  rintro ⟨hp, hmin⟩
  cases hfound : splitLine? t with
  | none => exact absurd hp (splitLine?_eq_none_iff.mp hfound p)
  | some q =>
    obtain ⟨hq, hqmin⟩ := hsound q hfound
    rw [hp.eq_of_length_file hq (Nat.le_antisymm (hqmin p hp) (hmin q hq))]

/-! ## Headers inside a file -/

theorem Parts.paren_notMem_tail_header (hp : p.ProperAfterFile) :
    '(' ∉ (header p.line p.column).tail := by
  have hdigit : Text.isDecimalDigit '(' = false := by decide
  have hrow : ∀ row : Text, (∀ c ∈ row, Text.isDecimalDigit c = true) → '(' ∉ row :=
    fun row hrow hmem => Bool.false_ne_true (hdigit.symm.trans (hrow _ hmem))
  simp [header, hrow _ hp.line.2, hrow _ hp.column.2]

theorem Parts.IsCut.prefix_of_append (hp : p.IsCut t) :
    p.file ++ Parts.header p.line p.column <+: t :=
  ⟨p.code ++ (": ".toList ++ p.message), by
    rw [← hp.spelling_eq, Parts.spelling, Parts.afterFile, List.append_assoc]⟩

theorem Parts.IsCut.prefix_append_paren (hp : p.IsCut t) : p.file ++ ['('] <+: t := by
  refine List.IsPrefix.trans ?_ hp.prefix_of_append
  exact List.prefix_append_right_inj _ |>.mpr ⟨_, rfl⟩

/-- The header of a cut that comes before the file of another one ends lies in that file: it has no
parenthesis but the first, so that it cannot reach over the one at the end of the file. -/
theorem Parts.IsCut.header_infix (hp : p.IsCut t) (hq : q.IsCut t)
    (hlt : q.file.length < p.file.length) :
    Parts.header q.line q.column <:+: p.file.drop 1 := by
  have hfile : p.file <+: t := ⟨p.afterFile, hp.spelling_eq⟩
  rcases Nat.lt_or_ge p.file.length (q.file ++ Parts.header q.line q.column).length with hover | hin
  · exfalso
    obtain ⟨inner, hinner⟩ : q.file ++ ['('] <+: p.file :=
      List.prefix_of_prefix_length_le hq.prefix_append_paren hfile
        (by simpa using Nat.succ_le_of_lt hlt)
    obtain ⟨outer, houter⟩ : p.file ++ ['('] <+: q.file ++ Parts.header q.line q.column :=
      List.prefix_of_prefix_length_le hp.prefix_append_paren hq.prefix_of_append
        (by simpa using Nat.succ_le_of_lt hover)
    have hheader : '(' :: (inner ++ '(' :: outer) = Parts.header q.line q.column := by
      rw [← hinner] at houter
      simpa using houter
    refine Parts.paren_notMem_tail_header hq.toProperAfterFile ?_
    rw [← hheader]
    simp
  · obtain ⟨later, hlater⟩ : q.file ++ Parts.header q.line q.column <+: p.file :=
      List.prefix_of_prefix_length_le hq.prefix_of_append hfile hin
    obtain ⟨c, start, hstart⟩ := List.exists_cons_of_ne_nil hq.file_ne_nil
    refine ⟨start, later, ?_⟩
    rw [← hlater, hstart]
    rfl

end Typesweep.Diagnostic
