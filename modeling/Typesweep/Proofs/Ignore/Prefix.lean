import Mathlib.Data.List.Basic
import Typesweep.Ignore.Glob
import Typesweep.Proofs.Text.Utf8

/-!
# Rule patterns that start with a directory

A pattern that starts with ordinary characters and a slash matches only what starts with them. The
slash may be read together with stars after it, but some element of the pattern always takes it;
braces cannot reach back over it, for the elements before an open brace are put aside until it is
closed.

* `Progress.Keeps`, `below_of_parseFrom`: what the reader never gives up again.
* `exists_below_of_accepts`: what such a pattern matches.
-/

namespace Typesweep.IgnoreGlob

open Text (toUtf8)
open RawText (slash)

variable {c : Char} {t dir : Text} {lead tokens : List Token} {token : Token} {p q : Progress}
  {fuel : Nat} {bytes rest : RawText}

/-! ## Reading -/

/-- An element that takes a slash first. -/
def Token.TakesSlash (token : Token) : Prop :=
  token = .literal '/' ∨ token = .innerComponents ∨ token = .trailingComponents

/-- The elements, last one first, start with `lead`, last one first, and one that takes a slash. -/
def Below (lead tokens : List Token) : Prop :=
  ∃ later slashed, Token.TakesSlash slashed ∧ tokens = later ++ slashed :: lead

theorem Below.cons (h : Below lead tokens) (token : Token) : Below lead (token :: tokens) := by
  obtain ⟨later, slashed, hslashed, rfl⟩ := h
  exact ⟨token :: later, slashed, hslashed, rfl⟩

namespace Progress

/-- The elements outside of all braces, the last one first. -/
def outermost (p : Progress) : List Token :=
  (p.groups.getLast?.map Group.before).getD p.tokens

/-- Outside of all braces stand `lead` and an element that takes a slash. -/
def Keeps (lead : List Token) (p : Progress) : Prop :=
  Below lead p.outermost

theorem outermost_of_groups_nil (h : p.groups = []) : p.outermost = p.tokens := by
  rw [outermost, h]
  rfl

/-- A step that neither opens nor closes braces is only of interest outside of them. -/
theorem Keeps.of_groups_eq (h : p.Keeps lead) (hgroups : q.groups = p.groups)
    (htokens : p.groups = [] → Below lead p.tokens → Below lead q.tokens) : q.Keeps lead := by
  unfold Keeps outermost at *
  rw [hgroups]
  cases hcase : p.groups with
  | nil =>
    rw [hcase] at h
    exact htokens hcase h
  | cons g groups =>
    rw [hcase] at h
    rw [List.getLast?_eq_some_getLast (List.cons_ne_nil _ _)] at h ⊢
    exact h

theorem Keeps.push (h : p.Keeps lead) (token : Token) (c : Char) : (p.push token c).Keeps lead :=
  h.of_groups_eq rfl fun _ htokens => htokens.cons token

theorem Keeps.pushRows (h : p.Keeps lead) : p.pushRows.Keeps lead :=
  h.of_groups_eq rfl fun _ htokens => (htokens.cons .row).cons .row

theorem groups_replaceLast (p : Progress) (token : Token) (c : Char) :
    (p.replaceLast token c).groups = p.groups := by
  unfold replaceLast
  split <;> rfl

theorem Keeps.replaceLast (h : p.Keeps lead) (htoken : token.TakesSlash) (c : Char) :
    (p.replaceLast token c).Keeps lead := by
  refine h.of_groups_eq (groups_replaceLast p token c) fun _ htokens => ?_
  obtain ⟨later, slashed, hslashed, heq⟩ := htokens
  unfold Progress.replaceLast
  split
  · exact ⟨later, slashed, hslashed, heq⟩
  · exact ⟨later, slashed, hslashed, heq⟩
  · next first rest _ _ hfirst =>
    rw [hfirst] at heq
    cases later with
    | nil =>
      obtain ⟨-, rfl⟩ := List.cons.inj heq
      exact ⟨[], token, htoken, rfl⟩
    | cons x later =>
      obtain ⟨-, rfl⟩ := List.cons.inj heq
      exact ⟨token :: later, slashed, hslashed, rfl⟩
  · next hnil => exact absurd (hnil.symm.trans heq) (by simp)

theorem Keeps.stars (h : p.Keeps lead) (following : Option Char) :
    (p.stars following).1.Keeps lead := by
  have htrailing := h.replaceLast (.inr (.inr rfl) : Token.trailingComponents.TakesSlash) '*'
  have hinner := h.replaceLast (.inr (.inl rfl) : Token.innerComponents.TakesSlash) '/'
  unfold Progress.stars
  dsimp only
  split
  · split
    · exact h.push _ _
    · split
      · exact h.push _ _
      · exact h.pushRows
  · split
    · exact h.pushRows
    · split
      · exact htrailing
      · split
        · exact htrailing
        · split
          · exact hinner
          · exact h.pushRows

theorem Keeps.openGroup (h : p.Keeps lead) : p.openGroup.Keeps lead := by
  unfold Keeps outermost Progress.openGroup at *
  dsimp only
  cases hcase : p.groups with
  | nil =>
    rw [hcase] at h
    exact h
  | cons g groups =>
    rw [hcase] at h
    rw [List.getLast?_cons_cons]
    rw [List.getLast?_eq_some_getLast (List.cons_ne_nil _ _)] at h ⊢
    exact h

theorem Keeps.closeGroup? (h : p.Keeps lead) (hq : p.closeGroup? = some q) : q.Keeps lead := by
  unfold Progress.closeGroup? at hq
  unfold Keeps outermost at *
  split at hq
  · cases hq
  · next g groups hcase =>
    obtain rfl := Option.some.inj hq
    dsimp only
    rw [hcase] at h
    cases groups with
    | nil => exact Below.cons h _
    | cons g' groups =>
      rw [List.getLast?_cons_cons] at h
      rw [List.getLast?_eq_some_getLast (List.cons_ne_nil _ _)] at h ⊢
      exact h

theorem Keeps.comma (h : p.Keeps lead) : p.comma.Keeps lead := by
  unfold Progress.comma
  split
  · exact h.push _ _
  · next g groups hcase =>
    unfold Keeps outermost at *
    dsimp only
    rw [hcase] at h
    cases groups with
    | nil => exact h
    | cons g' groups =>
      rw [List.getLast?_cons_cons] at h ⊢
      rw [List.getLast?_eq_some_getLast (List.cons_ne_nil _ _)] at h ⊢
      exact h

end Progress

/-- The reader keeps what it has outside of all braces. -/
theorem below_of_parseFrom (h : parseFrom fuel p t = some tokens) (hp : p.Keeps lead) :
    Below lead tokens.reverse := by
  fun_induction parseFrom fuel p t with
  | case1 | case3 | case9 | case12 | case14 => cases h
  | case2 _ p hgroups =>
    obtain rfl := Option.some.inj h
    rw [List.reverse_reverse]
    rwa [Progress.Keeps, Progress.outermost_of_groups_nil (List.isEmpty_iff.mp hgroups)] at hp
  | case4 _ p _ ih => exact ih h (hp.push _ _)
  | case5 _ p rest _ _ hstars _ ih =>
    refine ih h ?_
    have hkeeps := hp.stars rest.head?
    rwa [hstars] at hkeeps
  | case6 _ p _ _ _ ih => exact ih h (hp.push _ _)
  | case7 _ p _ _ _ _ _ _ _ _ _ ih => exact ih h (hp.push _ _)
  | case8 _ p _ _ _ _ _ _ ih =>
    exact ih h (hp.of_groups_eq rfl fun _ htokens => htokens.cons _)
  | case10 _ p _ _ _ _ ih => exact ih h hp.openGroup
  | case11 _ p _ _ hclose _ _ _ _ ih => exact ih h (hp.closeGroup? hclose)
  | case13 _ p _ _ _ _ _ _ ih => exact ih h hp.comma
  | case15 _ p _ _ _ _ _ _ _ _ ih => exact ih h (hp.push _ _)
  | case16 _ p _ _ _ _ _ _ _ _ _ ih => exact ih h (hp.push _ _)

/-- A character that is ordinary wherever it stands in a pattern, or else no pattern can hold. -/
def IsOrdinary (c : Char) : Prop :=
  c ≠ '?' ∧ c ≠ '*' ∧ c ≠ '[' ∧ c ≠ '\x7b' ∧ c ≠ '\\'

instance : DecidablePred IsOrdinary :=
  fun _ => inferInstanceAs (Decidable (_ ∧ _ ∧ _ ∧ _ ∧ _))

/-- Ordinary characters outside of braces are read as themselves. -/
theorem parseFrom_of_isOrdinary (hc : IsOrdinary c) (hp : p.groups = [])
    (h : parseFrom (fuel + 1) p (c :: t) = some tokens) :
    parseFrom fuel (p.push (.literal c) c) t = some tokens := by
  obtain ⟨hany, hstar, hclass, hopen, hescape⟩ := hc
  have hclose : p.closeGroup? = none := by rw [Progress.closeGroup?, hp]
  have hcomma : p.comma = p.push (.literal ',') ',' := by rw [Progress.comma, hp]
  rw [parseFrom.eq_def] at h
  simp only [hany, hstar, hclass, hopen, hescape, hclose, hcomma, if_false, false_and] at h
  split at h
  · cases h
  · split at h
    · next heq => rwa [heq]
    · exact h

/-- The elements of a pattern that starts with ordinary characters and a slash. -/
theorem exists_tokens_of_parse (hdir : ∀ c ∈ dir, IsOrdinary c)
    (h : parse (dir ++ '/' :: t) = some tokens) :
    ∃ slashed later, Token.TakesSlash slashed ∧
      tokens = dir.map Token.literal ++ slashed :: later := by
  have hread : ∀ (fuel : Nat) (p : Progress), p.groups = [] →
      parseFrom fuel p (dir ++ '/' :: t) = some tokens →
        Below ((dir.map Token.literal).reverse ++ p.tokens) tokens.reverse := by
    clear h
    induction dir with
    | nil =>
      intro fuel p hp h
      cases fuel with
      | zero => cases h
      | succ fuel =>
        refine below_of_parseFrom (parseFrom_of_isOrdinary (by decide) hp h) ?_
        rw [Progress.Keeps, Progress.outermost_of_groups_nil (by exact hp)]
        exact ⟨[], .literal '/', .inl rfl, rfl⟩
    | cons c dir ih =>
      intro fuel p hp h
      cases fuel with
      | zero => cases h
      | succ fuel =>
        obtain ⟨hc, hrest⟩ := List.forall_mem_cons.mp hdir
        have hbelow := ih hrest fuel _ (by exact hp) (parseFrom_of_isOrdinary hc hp h)
        rw [List.map_cons, List.reverse_cons, List.append_assoc]
        exact hbelow
  obtain ⟨later, slashed, hslashed, heq⟩ := hread _ {} rfl h
  refine ⟨slashed, later.reverse, hslashed, ?_⟩
  rw [← List.reverse_reverse tokens, heq]
  simp

/-! ## Matching -/

theorem mem_restsOfAll {ss : List (RawText)} {r : RawText} :
    r ∈ restsOfAll tokens ss ↔ ∃ s ∈ ss, r ∈ restsOfAll tokens [s] := by
  induction tokens generalizing ss with
  | nil => simp [restsOfAll]
  | cons token tokens ih =>
    rw [restsOfAll, ih]
    constructor
    · rintro ⟨s', hs', hr⟩
      obtain ⟨s, hs, hmem⟩ := List.mem_flatMap.mp (List.mem_eraseDups.mp hs')
      refine ⟨s, hs, ?_⟩
      rw [restsOfAll, ih]
      exact ⟨s', List.mem_eraseDups.mpr (by simpa using hmem), hr⟩
    · rintro ⟨s, hs, hr⟩
      rw [restsOfAll, ih] at hr
      obtain ⟨s', hs', hr⟩ := hr
      exact ⟨s', List.mem_eraseDups.mpr (List.mem_flatMap.mpr
        ⟨s, hs, by simpa using List.mem_eraseDups.mp hs'⟩), hr⟩

/-- The elements of a pattern are matched one after the other. -/
theorem mem_restsOfAll_cons {s r : RawText} :
    r ∈ restsOfAll (token :: tokens) [s] ↔ ∃ s' ∈ token.rests s, r ∈ restsOfAll tokens [s'] := by
  rw [restsOfAll, mem_restsOfAll]
  simp [List.mem_eraseDups]

theorem exists_append_of_mem_rests {s r : RawText} (h : r ∈ (Token.literal c).rests s) :
    s = String.utf8EncodeChar c ++ r := by
  have hprefix : (String.utf8EncodeChar c).isPrefixOf? s = some r := by
    simpa [Token.rests] using h
  exact (List.isPrefixOf?_eq_some_iff_append_eq.mp hprefix).symm

theorem Token.TakesSlash.exists_cons {s r : RawText} (h : token.TakesSlash)
    (hr : r ∈ token.rests s) : ∃ rest, s = slash :: rest := by
  rcases h with rfl | rfl | rfl
  · exact ⟨r, exists_append_of_mem_rests hr⟩
  · unfold Token.rests at hr
    split at hr
    · split at hr
      · next heq => exact ⟨_, by rw [heq]⟩
      · exact absurd hr List.not_mem_nil
    · exact absurd hr List.not_mem_nil
  · unfold Token.rests at hr
    split at hr
    · split at hr
      · next heq => exact ⟨_, by rw [heq]⟩
      · exact absurd hr List.not_mem_nil
    · exact absurd hr List.not_mem_nil

theorem exists_append_of_mem_restsOfAll {slashed : Token} (hslashed : slashed.TakesSlash)
    {s r : RawText} (h : r ∈ restsOfAll (dir.map Token.literal ++ slashed :: tokens) [s]) :
    ∃ rest, s = toUtf8 dir ++ slash :: rest := by
  induction dir generalizing s with
  | nil =>
    obtain ⟨s', hs', -⟩ := mem_restsOfAll_cons.mp h
    exact hslashed.exists_cons hs'
  | cons c dir ih =>
    obtain ⟨s', hs', hr⟩ := mem_restsOfAll_cons.mp h
    obtain ⟨rest, rfl⟩ := ih hr
    refine ⟨rest, ?_⟩
    rw [exists_append_of_mem_rests hs', ← List.append_assoc]
    rfl

/-- A pattern that starts with a directory of ordinary characters matches only below it. -/
theorem exists_below_of_accepts {s : RawText} (hdir : ∀ c ∈ dir, IsOrdinary c)
    (hparse : parse (dir ++ '/' :: t) = some tokens) (h : accepts tokens s = true) :
    ∃ below, s = toUtf8 dir ++ slash :: below := by
  obtain ⟨slashed, later, hslashed, rfl⟩ := exists_tokens_of_parse hdir hparse
  have hrests : [] ∈ restsOfAll (dir.map Token.literal ++ slashed :: later) [s] := by
    unfold accepts at h
    split at h
    · next heq =>
      cases dir with
      | nil =>
        obtain ⟨rfl, -⟩ := List.cons.inj heq
        rcases hslashed with heq | heq | heq <;> cases heq
      | cons c dir => cases (List.cons.inj heq).1
    · simpa using h
  exact exists_append_of_mem_restsOfAll hslashed hrests

end Typesweep.IgnoreGlob
