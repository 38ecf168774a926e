import Typesweep.Proofs.Diagnostic.Cut
import Typesweep.Proofs.Text.Lines
import Typesweep.Proofs.Text.Numerals

/-!
# Reading back an output

A checker prints problems and, between them, lines of other kinds. All its problems are read back,
in order, whatever else it prints.

* `Printed`, `Row`: a printed problem, and a line of an output.
* `ofLine?_printed`, `ofLine?_eq_none_of_forall_not_isCut`: what is read from a line of either kind.
* `ofOutput_flatMap_row`: what is read from an output.
-/

namespace Typesweep.Diagnostic

variable {cwd : Path} {t : Text}

/-! ## Printed problems -/

/-- A problem as a checker prints it. -/
structure Printed where
  /-- The file, as the checker names it. -/
  file : Text
  line : UInt32
  column : UInt32
  code : Text
  message : Text
  deriving DecidableEq, Repr

namespace Printed

/-- The parts of the line of a problem. -/
def parts (d : Printed) : Parts :=
  ⟨d.file, Text.ofNat d.line.toNat, Text.ofNat d.column.toNat, d.code, d.message⟩

/-- The problem of a checker that runs in `cwd`. -/
def resolve (cwd : Path) (d : Printed) : Diagnostic :=
  ⟨cwd.absolutize (.ofText d.file), d.line, d.column, d.code, d.message⟩

/-- The problem fits on a line, and its file does not hold what could be taken for the end of a
file. -/
structure IsPrintable (d : Printed) : Prop where
  file_ne_nil : d.file ≠ []
  newline_notMem_file : '\n' ∉ d.file
  not_header_infix_file : ∀ line column : Text, IsDigits line → IsDigits column →
    ¬Parts.header line column <:+: d.file.drop 1
  code : IsCode d.code
  newline_notMem_message : '\n' ∉ d.message
  getLast?_message_ne : d.message.getLast? ≠ some '\r'

variable {d : Printed}

theorem isDigits_ofNat (n : Nat) : IsDigits (Text.ofNat n) :=
  ⟨Text.ofNat_ne_nil n, fun _ hc => Text.isDecimalDigit_of_mem_ofNat hc⟩

theorem IsPrintable.isCut (hd : d.IsPrintable) : d.parts.IsCut d.parts.spelling where
  line := isDigits_ofNat _
  column := isDigits_ofNat _
  code := hd.code
  file_ne_nil := hd.file_ne_nil
  spelling_eq := rfl

theorem IsPrintable.splitLine? (hd : d.IsPrintable) :
    splitLine? d.parts.spelling = some d.parts := by
  refine splitLine?_eq_some_iff.mpr ⟨hd.isCut, fun q hq => Nat.le_of_not_lt fun hlt => ?_⟩
  exact hd.not_header_infix_file q.line q.column hq.line hq.column (hd.isCut.header_infix hq hlt)

theorem word?_ofNat (n : UInt32) : word? (Text.ofNat n.toNat) = some n := by
  rw [word?, Text.numeral?_ofNat]
  simp [n.toNat_lt_size]

theorem IsPrintable.newline_notMem_spelling (hd : d.IsPrintable) : '\n' ∉ d.parts.spelling := by
  have hdigits : ∀ n : Nat, '\n' ∉ Text.ofNat n := fun n hmem =>
    absurd (Text.isDecimalDigit_of_mem_ofNat hmem) (by decide)
  have hcode : '\n' ∉ d.code := fun hmem => absurd (hd.code.2 _ hmem) (by decide)
  simp [Parts.spelling, Parts.afterFile, Parts.header, parts, hdigits, hcode,
    hd.newline_notMem_file, hd.newline_notMem_message]

theorem IsPrintable.dropCarriageReturns_spelling (hd : d.IsPrintable) :
    Text.dropCarriageReturns d.parts.spelling = d.parts.spelling := by
  refine Text.trimEnd_of_getLast? fun c hc => decide_eq_false ?_
  rintro rfl
  have hspelling : d.parts.spelling =
      d.file ++ Parts.header d.parts.line d.parts.column ++ d.code ++ [':', ' '] ++ d.message := by
    simp [Parts.spelling, Parts.afterFile, parts]
  rw [hspelling, List.getLast?_append] at hc
  cases hmessage : d.message.getLast? with
  | none =>
    rw [hmessage, List.getLast?_append] at hc
    exact absurd hc (by simp)
  | some last =>
    rw [hmessage] at hc
    exact hd.getLast?_message_ne (hmessage.trans hc)

/-- A printed problem is read back. -/
theorem IsPrintable.ofLine? (hd : d.IsPrintable) (cwd : Path) :
    ofLine? cwd d.parts.spelling = some (d.resolve cwd) := by
  have hline : word? d.parts.line = some d.line := word?_ofNat d.line
  have hcolumn : word? d.parts.column = some d.column := word?_ofNat d.column
  rw [Diagnostic.ofLine?, hd.dropCarriageReturns_spelling, hd.splitLine?]
  simp only [Option.bind_eq_bind, Option.bind_some, hline, hcolumn]
  rfl

end Printed

/-! ## Noise -/

/-- A line that is none of a problem stays so without its carriage returns, since a message can end
with some. -/
theorem ofLine?_eq_none_of_forall_not_isCut (h : ∀ p : Parts, ¬p.IsCut t) (cwd : Path) :
    ofLine? cwd t = none := by
  obtain ⟨returns, ht, -⟩ := Text.exists_trimEnd_append (· = '\r') t
  have hnone : splitLine? (Text.dropCarriageReturns t) = none := by
    refine splitLine?_eq_none_iff.mpr fun p hp => ?_
    refine h { p with message := p.message ++ returns } ⟨⟨hp.line, hp.column, hp.code⟩,
      hp.file_ne_nil, ?_⟩
    rw [ht, ← Text.dropCarriageReturns, ← hp.spelling_eq]
    simp [Parts.spelling, Parts.afterFile]
  rw [ofLine?, hnone]
  rfl

/-! ## Whole outputs -/

/-- What a line of an output says. -/
inductive Content
  | problem (d : Printed)
  | noise (t : Text)
  deriving DecidableEq, Repr

/-- How a line is ended. -/
inductive LineEnd
  | newline
  | returnNewline
  deriving DecidableEq, Repr

/-- A line of an output. -/
structure Row where
  content : Content
  ending : LineEnd
  deriving DecidableEq, Repr

namespace Content

/-- The text of a line, without what ends it. -/
def text : Content → Text
  | problem d => d.parts.spelling
  | noise t => t

/-- The problem that a line reports. -/
def printed? : Content → Option Printed
  | problem d => some d
  | noise _ => none

/-- Problems can be printed on a line, and noise is a line that has no cut. -/
def IsProper : Content → Prop
  | problem d => d.IsPrintable
  | noise t => '\n' ∉ t ∧ ∀ p : Parts, ¬p.IsCut t

variable {content : Content}

theorem IsProper.newline_notMem (h : content.IsProper) : '\n' ∉ content.text := by
  cases content with
  | problem d => exact Printed.IsPrintable.newline_notMem_spelling h
  | noise t => exact h.1

theorem IsProper.ofLine? (h : content.IsProper) (cwd : Path) :
    ofLine? cwd content.text = content.printed?.map (Printed.resolve cwd) := by
  cases content with
  | problem d => exact Printed.IsPrintable.ofLine? h cwd
  | noise t => exact ofLine?_eq_none_of_forall_not_isCut h.2 cwd

end Content

/-- The characters that end a line. -/
def LineEnd.text : LineEnd → Text
  | newline => ['\n']
  | returnNewline => ['\r', '\n']

/-- The text of a line with what ends it. -/
def Row.text (row : Row) : Text :=
  row.content.text ++ row.ending.text

/-- The end of a line makes no difference to what is read. -/
theorem ofLine?_dropLineEnding (cwd : Path) (t : Text) :
    ofLine? cwd (Text.dropLineEnding t) = ofLine? cwd t := by
  rw [ofLine?, Text.dropCarriageReturns_dropLineEnding, ofLine?]

theorem ofLine?_append_return (cwd : Path) (t : Text) :
    ofLine? cwd (t ++ ['\r']) = ofLine? cwd t := by
  rw [ofLine?, Text.dropCarriageReturns_append_return, ofLine?]

/-- One line more at the start of an output. -/
theorem ofOutput_row_append {row : Row} (h : row.content.IsProper) (cwd : Path) (rest : Text) :
    ofOutput cwd (row.text ++ rest) =
      (row.content.printed?.map (Printed.resolve cwd)).toList ++ ofOutput cwd rest := by
  have hread : ∀ line : Text, '\n' ∉ line → ofOutput cwd (line ++ '\n' :: rest) =
      (ofLine? cwd line).toList ++ ofOutput cwd rest := by
    intro line hline
    rw [ofOutput, Text.lines_append_newline hline, List.filterMap_cons, ofLine?_dropLineEnding]
    cases ofLine? cwd line <;> rfl
  have hcontent : '\n' ∉ row.content.text := h.newline_notMem
  rw [← h.ofLine? cwd, Row.text]
  cases row.ending with
  | newline => rw [LineEnd.text, List.append_assoc, List.singleton_append, hread _ hcontent]
  | returnNewline =>
    have hsplit : row.content.text ++ ['\r', '\n'] ++ rest =
        (row.content.text ++ ['\r']) ++ '\n' :: rest := by simp
    rw [LineEnd.text, hsplit, hread _ (by simpa using hcontent), ofLine?_append_return]

/-- The problems of an output are read back in order, each as often as it was printed, whatever
lines stand between them and however the lines end. -/
theorem ofOutput_flatMap_row (cwd : Path) (rows : List Row)
    (h : ∀ row ∈ rows, row.content.IsProper) :
    ofOutput cwd (rows.flatMap Row.text) =
      (rows.filterMap fun row => row.content.printed?).map (Printed.resolve cwd) := by
  induction rows with
  | nil => rfl
  | cons row rows ih =>
    rw [List.flatMap_cons, ofOutput_row_append (h row List.mem_cons_self),
      ih fun other hother => h other (List.mem_cons_of_mem row hother), List.filterMap_cons]
    cases row.content.printed? <;> rfl

/-- A file with parentheses, numbers at the bounds of 32 bits, and a message that looks like another
problem. -/
def Printed.lookalike : Printed :=
  ⟨"a(1)/b(2,3).ts".toList, 4294967295, 0, "E1".toList, "c.ts(4,5): error E2: d".toList⟩

theorem ofOutput_flatMap_row_lookalike :
    ofOutput (.ofString "/w")
        ("> tsc\r\n\na(1,2): error:\n".toList ++
          "a(1)/b(2,3).ts(4294967295,0): error E1: c.ts(4,5): error E2: d\r\n".toList) =
      [⟨.ofString "/w/a(1)/b(2,3).ts", 4294967295, 0, "E1".toList,
        "c.ts(4,5): error E2: d".toList⟩] := by
  have hnoise : ∀ t : Text, '\n' ∉ t → splitLine? t = none → (Content.noise t).IsProper :=
    fun t ht hnone => ⟨ht, splitLine?_eq_none_iff.mp hnone⟩
  have hprintable : Printed.lookalike.IsPrintable :=
    { file_ne_nil := by decide
      newline_notMem_file := by decide
      not_header_infix_file := fun line column _ _ hinfix =>
        absurd ((List.suffix_append _ _).isInfix.trans hinfix : "): error ".toList <:+: _)
          (by decide)
      code := ⟨by decide, List.all_eq_true.mp (by decide)⟩
      newline_notMem_message := by decide
      getLast?_message_ne := by decide }
  have hread := ofOutput_flatMap_row (.ofString "/w")
    [⟨.noise "> tsc".toList, .returnNewline⟩, ⟨.noise [], .newline⟩,
      ⟨.noise "a(1,2): error:".toList, .newline⟩, ⟨.problem .lookalike, .returnNewline⟩]
    (by
      simp only [List.forall_mem_cons, List.not_mem_nil, false_implies, implies_true, and_true]
      exact ⟨hnoise _ (by decide) rfl, hnoise _ (by decide) rfl, hnoise _ (by decide) rfl,
        hprintable⟩)
  have hproblem : Printed.lookalike.resolve (.ofString "/w") =
      ⟨.ofString "/w/a(1)/b(2,3).ts", 4294967295, 0, "E1".toList,
        "c.ts(4,5): error E2: d".toList⟩ := by
    decide +kernel
  rw [← hproblem]
  exact hread

end Typesweep.Diagnostic
