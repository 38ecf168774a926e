import Mathlib.Data.List.Forall2
import Typesweep.Proofs.Json.Places
import Typesweep.Proofs.Jsonc.Lookahead
import Typesweep.Proofs.Text.Cutting

/-!
# Lines after stripping

Stripping takes characters away and puts a space for every block comment, but each newline of the
text stays, in strings, in comments and in gaps after an extra comma alike. So what is left of a
line is on the same line, whether or not the text is JSON with comments at all, and the line that is
told of a fault is one of the text that was stripped.

* `Thins`: what may become of a text.
* `thins_strip`: what becomes of a text that is stripped.
* `Thins.lines`, `Thins.exists_append`: its lines, and its places.
* `strip_keepsLines`: the main result.
-/

namespace Typesweep.Jsonc

open Text

variable {s t : Text} {c : Char}

/-- `s` is what is left of `t` when characters other than newlines are taken away and spaces are put
in. -/
inductive Thins : Text → Text → Prop
  | nil : Thins [] []
  | keep (c : Char) {s t : Text} : Thins s t → Thins (c :: s) (c :: t)
  | drop {c : Char} {s t : Text} : c ≠ '\n' → Thins s t → Thins s (c :: t)
  | space {s t : Text} : Thins s t → Thins (' ' :: s) t

namespace Thins

theorem count_newline (h : Thins s t) : s.count '\n' = t.count '\n' := by
  induction h with
  | nil => rfl
  | keep c h ih => rw [List.count_cons, List.count_cons, ih]
  | drop hc h ih => rw [List.count_cons_of_ne hc, ih]
  | space h ih => rw [List.count_cons_of_ne (by decide), ih]

/-- Apart from spaces nothing was put in. -/
theorem sublist (h : Thins s t) : (s.filter (· ≠ ' ')).Sublist t := by
  induction h with
  | nil => exact List.Sublist.refl []
  | keep c h ih =>
    by_cases hc : c = ' '
    · rw [List.filter_cons_of_neg (by simpa using hc)]
      exact ih.cons c
    · rw [List.filter_cons_of_pos (by simpa using hc)]
      exact ih.cons_cons c
  | drop hc h ih => exact ih.cons _
  | space h ih => exact ih

/-- A line is what is left of the line that was there. -/
theorem lines (h : Thins s t) : List.Forall₂ Thins (splitOn '\n' s) (splitOn '\n' t) := by
  induction h with
  | nil => exact .cons .nil .nil
  | @keep c s t h ih =>
    by_cases hc : c = '\n'
    · subst hc
      rw [splitOn_cons_sep, splitOn_cons_sep]
      exact .cons .nil ih
    · obtain ⟨line, lines, hs⟩ := List.exists_cons_of_ne_nil (splitOn_ne_nil '\n' s)
      obtain ⟨line', lines', ht⟩ := List.exists_cons_of_ne_nil (splitOn_ne_nil '\n' t)
      rw [hs, ht, List.forall₂_cons] at ih
      rw [splitOn_cons_of_ne hc hs, splitOn_cons_of_ne hc ht]
      exact .cons (ih.1.keep c) ih.2
  | @drop c s t hc h ih =>
    obtain ⟨line, lines, hs⟩ := List.exists_cons_of_ne_nil (splitOn_ne_nil '\n' s)
    obtain ⟨line', lines', ht⟩ := List.exists_cons_of_ne_nil (splitOn_ne_nil '\n' t)
    rw [hs, ht, List.forall₂_cons] at ih
    rw [hs, splitOn_cons_of_ne hc ht]
    exact .cons (ih.1.drop hc) ih.2
  | @space s t h ih =>
    obtain ⟨line, lines, hs⟩ := List.exists_cons_of_ne_nil (splitOn_ne_nil '\n' s)
    obtain ⟨line', lines', ht⟩ := List.exists_cons_of_ne_nil (splitOn_ne_nil '\n' t)
    rw [hs, ht, List.forall₂_cons] at ih
    rw [splitOn_cons_of_ne (by decide) hs, ht]
    exact .cons ih.1.space ih.2

/-- A place of what is left comes from a place of the text that was there. -/
theorem exists_append {first rest : Text} (h : Thins (first ++ rest) t) :
    ∃ first' rest', t = first' ++ rest' ∧ Thins first first' ∧ Thins rest rest' := by
  generalize hs : first ++ rest = s at h
  induction h generalizing first with
  | nil =>
    obtain ⟨rfl, rfl⟩ := List.append_eq_nil_iff.mp hs
    exact ⟨[], [], rfl, .nil, .nil⟩
  | keep c h ih =>
    cases first with
    | nil =>
      obtain rfl := hs
      exact ⟨[], _, rfl, .nil, h.keep c⟩
    | cons d first =>
      obtain ⟨rfl, happend⟩ := List.cons.inj hs
      obtain ⟨first', rest', rfl, hfirst, hrest⟩ := ih happend
      exact ⟨d :: first', rest', rfl, hfirst.keep d, hrest⟩
  | drop hc h ih =>
    obtain ⟨first', rest', rfl, hfirst, hrest⟩ := ih hs
    exact ⟨_ :: first', rest', rfl, hfirst.drop hc, hrest⟩
  | space h ih =>
    cases first with
    | nil =>
      obtain rfl := hs
      exact ⟨[], _, rfl, .nil, h.space⟩
    | cons d first =>
      obtain ⟨rfl, happend⟩ := List.cons.inj hs
      obtain ⟨first', rest', rfl, hfirst, hrest⟩ := ih happend
      exact ⟨first', rest', rfl, hfirst.space, hrest⟩

end Thins

/-! ## Stripping -/

/-- What the scanner leaves, from whatever mode on. -/
theorem thins_cleaned (mode : Mode) (t : Text) : Thins (cleaned mode t) t := by
  fun_induction cleaned mode t with
  | case1 => exact .nil
  | case2 rest ih => exact (ih.drop (by decide)).drop (by decide)
  | case3 rest ih => exact ((ih.drop (by decide)).drop (by decide)).space
  | case4 rest _ _ ih => exact ih.keep '"'
  | case5 c rest _ _ _ hcomma ih => exact ih.drop (by rw [hcomma.1]; decide)
  | case6 c rest _ _ _ _ ih => exact ih.keep c
  | case7 rest ih => exact ih.keep '\\'
  | case8 rest _ ih => exact ih.keep '"'
  | case9 c rest _ _ ih => exact ih.keep c
  | case10 c rest ih => exact ih.keep c
  | case11 rest ih => exact ih.keep '\n'
  | case12 c rest hline ih => exact ih.drop hline
  | case13 star rest ih => exact ih.keep '\n'
  | case14 star c rest hline hend ih => exact ih.drop hline
  | case15 star c rest hline hend ih => exact ih.drop hline

theorem thins_strip (t : Text) : Thins (strip t) t := by
  by_cases hmark : t.head? = some '\ufeff'
  · obtain ⟨rest, rfl⟩ : ∃ rest, t = '\ufeff' :: rest := by
      cases t with
      | nil => cases hmark
      | cons c rest => exact ⟨rest, by rw [Option.some.inj hmark]⟩
    rw [strip_mark]
    exact (thins_cleaned .code rest).drop (by decide)
  · rw [strip_eq_cleaned hmark]
    exact thins_cleaned .code t

/-- Stripping keeps the number of newlines, and what is left of a line, apart from spaces, is on
that line and in order. So a fault that is found in what is left is told with the line that its
place has in the text itself. -/
theorem strip_keepsLines (t : Text) :
    (strip t).count '\n' = t.count '\n' ∧
    List.Forall₂ (fun line original => (line.filter (· ≠ ' ')).Sublist original)
      (splitOn '\n' (strip t)) (splitOn '\n' t) ∧
    ∀ f : Json.Fault, Declaration.read (strip t) = .error f →
      ∃ done before after, strip t = done ++ f.rest ∧ t = before ++ after ∧
        (done.filter (· ≠ ' ')).Sublist before ∧ (f.rest.filter (· ≠ ' ')).Sublist after ∧
        f.line (strip t) = 1 + before.count '\n' := by
  have hthins := thins_strip t
  refine ⟨hthins.count_newline, hthins.lines.imp fun _ _ h => h.sublist, fun f hf => ?_⟩
  obtain ⟨done, hdone⟩ : f.rest <:+ strip t := (Declaration.read_staysIn (strip t)).error hf
  rw [← hdone] at hthins ⊢
  obtain ⟨before, after, rfl, hbefore, hafter⟩ := hthins.exists_append
  refine ⟨done, before, after, rfl, rfl, hbefore.sublist, hafter.sublist, ?_⟩
  rw [f.line_append, hbefore.count_newline]

/-- Comments of both kinds, one in the gap after an extra comma, and a fault on the fifth line. -/
def brokenLine : Text :=
  "\x7b\n// c\n\"files\": [\"a\", /* b\n*/\n], \"x\": \x7d".toList

theorem strip_keepsLines_brokenLine :
    strip brokenLine = "\x7b\n\n\"files\": [\"a\"  \n\n], \"x\": \x7d".toList ∧
      ∃ f : Json.Fault, Declaration.read (strip brokenLine) = .error f ∧
        f.line (strip brokenLine) = 5 ∧
          ∃ before after, brokenLine = before ++ after ∧
            (f.rest.filter (· ≠ ' ')).Sublist after ∧ 1 + before.count '\n' = 5 := by
  obtain ⟨f, hf, hline⟩ : ∃ f : Json.Fault, Declaration.read (strip brokenLine) = .error f ∧
      f.line (strip brokenLine) = 5 := by
    have hline : (match Declaration.read (strip brokenLine) with
        | .error f => f.line (strip brokenLine)
        | .ok _ => 0) = 5 := by decide +kernel
    generalize Declaration.read (strip brokenLine) = answer at hline ⊢
    cases answer with
    | error f => exact ⟨f, rfl, hline⟩
    | ok d => cases hline
  obtain ⟨-, -, hfault⟩ := strip_keepsLines brokenLine
  obtain ⟨_, before, after, -, ht, -, hafter, hbefore⟩ := hfault f hf
  exact ⟨by decide +kernel, f, hf, hline, before, after, ht, hafter, hbefore.symm.trans hline⟩

end Typesweep.Jsonc
