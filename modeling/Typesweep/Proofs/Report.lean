import Typesweep.Proofs.Json.Writing
import Typesweep.Proofs.Text.Lines
import Typesweep.Report

/-!
# Reading reports back

For programs, the report of a project and the summary of a run are a line each, whatever their file
names, codes and messages hold. So what a run prints can be cut at the newlines, and each line tells
by the names of its fields all that the report or the summary was made of.

The names of the fields count, not their order: a report has them as they are declared, a summary in
alphabetical order under one name.

* `ProjectReport.ofJson?`, `RunSummary.ofJson?`: what a program makes of a line.
* `Block.render_decodes`: the main result, for one line and for many.
-/

namespace Typesweep

open Json

variable {j : Json} {line t : Text} {n depth : Nat} {blocks : List Block}

/-! ## Decoding -/

namespace Json

def text? : Json → Option Text
  | .string t => some t
  | _ => none

def bool? : Json → Option Bool
  | .bool b => some b
  | _ => none

/-- A number of 64 bits without a sign. -/
def word? : Json → Option Nat
  | .number (.natural n) => some n
  | _ => none

/-- A number of 32 bits without a sign. -/
def halfWord? (j : Json) : Option UInt32 := do
  let n ← j.word?
  if n < UInt32.size then some (.ofNat n) else none

def items? : Json → Option (List Json)
  | .array items => some items
  | _ => none

end Json

def DiagnosticEntry.ofJson? (j : Json) : Option DiagnosticEntry := do
  let file ← (← j.get? "file").text?
  let line ← (← j.get? "line").halfWord?
  let column ← (← j.get? "column").halfWord?
  let code ← (← j.get? "code").text?
  let message ← (← j.get? "message").text?
  return ⟨file, line, column, code, message⟩

def ProjectReport.ofJson? (j : Json) : Option ProjectReport := do
  let config ← (← j.get? "config").text?
  let passed ← (← j.get? "passed").bool?
  let errorCount ← (← j.get? "error_count").word?
  let items ← (← j.get? "diagnostics").items?
  let diagnostics ← items.mapM DiagnosticEntry.ofJson?
  return ⟨config, passed, errorCount, diagnostics⟩

/-- The totals, from what stands under `summary`. -/
def RunSummary.ofJson? (j : Json) : Option RunSummary := do
  let passed ← (← j.get? "passed").bool?
  let projects ← (← j.get? "projects").word?
  let errors ← (← j.get? "errors").word?
  let failedTasks ← (← j.get? "failed_tasks").word?
  return ⟨passed, projects, errors, failedTasks⟩

/-- What a run prints for programs: a report on each project, and a summary at the end. -/
inductive Block
  | report (r : ProjectReport)
  | summary (s : RunSummary)
  deriving DecidableEq, Repr

namespace Block

def toJson : Block → Json
  | .report r => r.toJson
  | .summary s => s.toJson

def render (mode : OutputMode) : Block → Text
  | .report r => r.render mode
  | .summary s => s.render mode

/-- The numbers of the block have 64 bits. -/
def FitsWord : Block → Prop
  | .report r => r.errorCount < UInt64.size
  | .summary s => s.projects < UInt64.size ∧ s.errors < UInt64.size ∧ s.failedTasks < UInt64.size

instance : DecidablePred FitsWord
  | .report r => inferInstanceAs (Decidable (r.errorCount < UInt64.size))
  | .summary s => inferInstanceAs (Decidable
      (s.projects < UInt64.size ∧ s.errors < UInt64.size ∧ s.failedTasks < UInt64.size))

def ofJson? (j : Json) : Option Block :=
  match j.get? "summary" with
  | some totals => (RunSummary.ofJson? totals).map .summary
  | none => (ProjectReport.ofJson? j).map .report

/-- The block that a line of JSON tells of. -/
def decode? (line : Text) : Option Block :=
  match Json.read line with
  | .ok j => ofJson? j
  | .error _ => none

end Block

/-! ## What is written -/

theorem readable_natural (h : n < UInt64.size) : Readable depth (.number (.natural n)) :=
  .number (Nat.le_sub_one_of_lt h)

theorem ProjectReport.readable_entryJson (d : DiagnosticEntry) (depth : Nat) :
    Readable (depth + 1) (entryJson d) := by
  have hline : d.line.toNat < UInt64.size := Nat.lt_trans d.line.toNat_lt (by decide)
  have hcolumn : d.column.toNat < UInt64.size := Nat.lt_trans d.column.toNat_lt (by decide)
  refine .object ?_ ?_
  · show ["file".toList, "line".toList, "column".toList, "code".toList, "message".toList].Nodup
    decide
  · simp only [List.forall_mem_cons]
    exact ⟨.string _, readable_natural hline, readable_natural hcolumn, .string _, .string _,
      List.forall_mem_nil _⟩

theorem ProjectReport.readable_toJson {r : ProjectReport} (h : r.errorCount < UInt64.size)
    (depth : Nat) : Readable (depth + 3) r.toJson := by
  refine .object ?_ ?_
  · show ["config".toList, "passed".toList, "error_count".toList, "diagnostics".toList].Nodup
    decide
  · simp only [List.forall_mem_cons]
    refine ⟨.string _, .bool _, readable_natural h, .array ?_, List.forall_mem_nil _⟩
    intro item hitem
    obtain ⟨d, -, rfl⟩ := List.mem_map.mp hitem
    exact readable_entryJson d depth

theorem RunSummary.readable_toJson {s : RunSummary} (hprojects : s.projects < UInt64.size)
    (herrors : s.errors < UInt64.size) (hfailed : s.failedTasks < UInt64.size) (depth : Nat) :
    Readable (depth + 2) s.toJson := by
  refine .object (List.nodup_singleton _) (List.forall_mem_singleton.mpr (.object ?_ ?_))
  · show ["errors".toList, "failed_tasks".toList, "passed".toList, "projects".toList].Nodup
    decide
  · simp only [List.forall_mem_cons]
    exact ⟨readable_natural herrors, readable_natural hfailed, .bool _, readable_natural hprojects,
      List.forall_mem_nil _⟩

theorem Block.readable_toJson {b : Block} (h : b.FitsWord) : Readable maxDepth b.toJson := by
  cases b with
  | report r => exact ProjectReport.readable_toJson h 124
  | summary s => exact RunSummary.readable_toJson h.1 h.2.1 h.2.2 125

theorem Block.render_json (b : Block) : b.render .json = b.toJson.write ++ ['\n'] := by
  cases b <;> rfl

/-! ## Decoding what was written -/

theorem halfWord?_natural (n : UInt32) : halfWord? (.number (.natural n.toNat)) = some n := by
  have hword : word? (.number (.natural n.toNat)) = some n.toNat := rfl
  rw [halfWord?, hword]
  show (if n.toNat < UInt32.size then some (UInt32.ofNat n.toNat) else none) = some n
  rw [if_pos n.toNat_lt, UInt32.ofNat_toNat]

theorem DiagnosticEntry.ofJson?_entryJson (d : DiagnosticEntry) :
    ofJson? (ProjectReport.entryJson d) = some d := by
  show (do
    let line ← halfWord? (.number (.natural d.line.toNat))
    let column ← halfWord? (.number (.natural d.column.toNat))
    return (⟨d.file, line, column, d.code, d.message⟩ : DiagnosticEntry)) = some d
  rw [halfWord?_natural, halfWord?_natural]
  rfl

theorem ProjectReport.ofJson?_toJson (r : ProjectReport) : ofJson? r.toJson = some r := by
  have hdiagnostics : (r.diagnostics.map entryJson).mapM DiagnosticEntry.ofJson? =
      some r.diagnostics := by
    induction r.diagnostics with
    | nil => rfl
    | cons d ds ih =>
      rw [List.map_cons, List.mapM_cons, DiagnosticEntry.ofJson?_entryJson, ih]
      rfl
  show (do
    let diagnostics ← (r.diagnostics.map entryJson).mapM DiagnosticEntry.ofJson?
    return (⟨r.config, r.passed, r.errorCount, diagnostics⟩ : ProjectReport)) = some r
  rw [hdiagnostics]
  rfl

theorem Block.ofJson?_toJson (b : Block) : ofJson? b.toJson = some b := by
  cases b with
  | report r =>
    show (ProjectReport.ofJson? r.toJson).map Block.report = _
    rw [ProjectReport.ofJson?_toJson]
    rfl
  | summary s => rfl

namespace Block

theorem decode?_write {b : Block} (h : b.FitsWord) {rest : Text}
    (hrest : ∀ c ∈ rest, isSpace c = true) : decode? (b.toJson.write ++ rest) = some b := by
  rw [decode?, read_write (readable_toJson h) hrest]
  exact ofJson?_toJson b

/-- A text without control characters is a line by itself. -/
theorem lines_write_append (j : Json) (rest : Text) :
    Text.lines (j.write ++ '\n' :: rest) = j.write :: Text.lines rest := by
  have hcontrol : ∀ c, c.toNat < 0x20 → c ∉ j.write := fun c hc hmem =>
    Nat.not_lt.mpr (le_of_mem_write j c hmem) hc
  have hreturn : Text.dropLineEnding j.write = j.write := by
    unfold Text.dropLineEnding
    split
    · next start heq =>
      have hmem : '\r' ∈ j.write := List.mem_reverse.mp (heq ▸ List.mem_cons_self)
      exact absurd hmem (hcontrol '\r' (by decide))
    · rfl
  rw [Text.lines_append_newline (hcontrol '\n' (by decide)), hreturn]

/-- Every block is printed for programs as one line without control characters, and this line tells
what the block was made of. So does what is printed one after the other, line by line. -/
theorem render_decodes :
    (∀ b : Block, b.FitsWord →
      (∃ line, b.render .json = line ++ ['\n'] ∧ ∀ c ∈ line, 0x20 ≤ c.toNat) ∧
        Json.read (b.render .json) = .ok b.toJson ∧ decode? (b.render .json) = some b) ∧
    ∀ blocks : List Block, (∀ b ∈ blocks, b.FitsWord) →
      (Text.lines (blocks.flatMap fun b => b.render .json)).map decode? = blocks.map some := by
  constructor
  · intro b hb
    have hspace : ∀ c ∈ ['\n'], isSpace c = true := List.forall_mem_singleton.mpr rfl
    rw [render_json]
    exact ⟨⟨_, rfl, le_of_mem_write b.toJson⟩, read_write (readable_toJson hb) hspace,
      decode?_write hb hspace⟩
  · intro blocks hblocks
    induction blocks with
    | nil => rfl
    | cons b blocks ih =>
      obtain ⟨hb, hrest⟩ := List.forall_mem_cons.mp hblocks
      have hline := decode?_write hb (List.forall_mem_nil _)
      rw [List.append_nil] at hline
      rw [List.flatMap_cons, render_json, List.append_assoc, List.singleton_append,
        lines_write_append, List.map_cons, List.map_cons, hline, ih hrest]

/-- A report with a quote, a backslash and control characters in its texts. -/
def oddNames : ProjectReport where
  config := "./a\"b/tsconfig.json".toList
  passed := false
  errorCount := 1
  diagnostics := [⟨"./a\"b/c\\d\n.ts".toList, 1, 2, "TS2322".toList, "no\t\x01".toList⟩]

theorem render_decodes_oddNames :
    (report oddNames).render .json =
        ("\x7b\"config\":\"./a\\\"b/tsconfig.json\",\"passed\":false,\"error_count\":1," ++
          "\"diagnostics\":[\x7b\"file\":\"./a\\\"b/c\\\\d\\n.ts\",\"line\":1,\"column\":2," ++
          "\"code\":\"TS2322\",\"message\":\"no\\t\\u0001\"\x7d]\x7d\n").toList ∧
      decode? ((report oddNames).render .json) = some (report oddNames) ∧
      (Text.lines ((report oddNames).render .json ++ (summary ⟨false, 1, 1, 0⟩).render .json)).map
        decode? = [some (report oddNames), some (summary ⟨false, 1, 1, 0⟩)] := by
  have hreport : FitsWord (report oddNames) := by decide
  have hsummary : FitsWord (summary ⟨false, 1, 1, 0⟩) := by decide
  obtain ⟨hone, hall⟩ := render_decodes
  refine ⟨by decide +kernel, (hone _ hreport).2.2, ?_⟩
  exact hall [report oddNames, summary ⟨false, 1, 1, 0⟩]
    (List.forall_mem_cons.mpr ⟨hreport, List.forall_mem_singleton.mpr hsummary⟩)

end Block

end Typesweep
