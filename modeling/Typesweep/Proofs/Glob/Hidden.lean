import Typesweep.Proofs.Glob.Anchored
import Typesweep.Proofs.Text.Cutting

/-!
# Matching, where hidden names must be spelled out

Where hidden names must be spelled out, no wildcard matches a dot at the start of a component. So a
hidden component is matched only by a dot of the pattern, and this dot stands where a component may
start: after a slash, at the start, or after a row of characters that may be empty. A pattern
without such a dot matches no text with a hidden component.

The wildcards between a slash and such a dot matter. `*.a` has no component with a dot at its start,
and still matches `.a`: the row is empty, and the dot is spelled out.

* `Unhidden`, `LeavesHidden`: texts without hidden components, and patterns without such a dot.
* `unhidden_of_matchFrom`: what these patterns match.
* `leavesHidden_of_parse`: when the pattern of a text is one of them.
* `matchFrom_components_sequence`: `**/*` matches every text without hidden components.
-/

namespace Typesweep.Glob

variable {c : Char} {t u : Text} {token : Token} {tokens done : List Token}
  {spelled whole fresh fresh' : Bool} {mode : Mode} {n : Nat}

/-! ## Texts -/

/-- No component of the text is hidden. `fresh` says that one starts at the start of the text. -/
def Unhidden : Bool → Text → Prop
  | _, [] => True
  | fresh, c :: t => (fresh = true → c ≠ '.') ∧ Unhidden (c = '/') t

theorem unhidden_slash : Unhidden fresh ('/' :: t) ↔ Unhidden true t := by
  simp [Unhidden]

/-- The texts between the slashes do not start with a dot. -/
theorem Unhidden.head?_ne (h : Unhidden fresh t) {first : Text} {pieces : List Text}
    (hpieces : Text.splitOn '/' t = first :: pieces) :
    (fresh = true → first.head? ≠ some '.') ∧ ∀ piece ∈ pieces, piece.head? ≠ some '.' := by
  induction t generalizing fresh first pieces with
  | nil =>
    obtain ⟨rfl, rfl⟩ := List.cons.inj hpieces
    exact ⟨nofun, nofun⟩
  | cons c t ih =>
    obtain ⟨hc, hrest⟩ := h
    obtain ⟨next, others, hnext⟩ := List.exists_cons_of_ne_nil (Text.splitOn_ne_nil '/' t)
    obtain ⟨hfirst, hothers⟩ := ih hrest hnext
    by_cases hslash : c = '/'
    · subst hslash
      rw [Text.splitOn_cons_sep, hnext] at hpieces
      obtain ⟨rfl, rfl⟩ := List.cons.inj hpieces
      exact ⟨nofun, List.forall_mem_cons.mpr ⟨hfirst (decide_eq_true rfl), hothers⟩⟩
    · rw [Text.splitOn_cons_of_ne hslash hnext] at hpieces
      obtain ⟨rfl, rfl⟩ := List.cons.inj hpieces
      exact ⟨fun hfresh heq => hc hfresh (Option.some.inj heq), hothers⟩

theorem Unhidden.forall_head?_ne (h : Unhidden true t) :
    ∀ piece ∈ Text.splitOn '/' t, piece.head? ≠ some '.' := by
  obtain ⟨first, pieces, hpieces⟩ := List.exists_cons_of_ne_nil (Text.splitOn_ne_nil '/' t)
  obtain ⟨hfirst, hrest⟩ := h.head?_ne hpieces
  rw [hpieces]
  exact List.forall_mem_cons.mpr ⟨hfirst rfl, hrest⟩

/-! ## Patterns -/

/-- Whether a component may start after an element, if `fresh` says so of its start. -/
def Token.leadsTo (fresh : Bool) (token : Token) : Bool :=
  token = .char '/' || token = .anyComponents || (token = .anySequence && fresh)

/-- No dot of the pattern stands where a component may start. -/
def LeavesHidden : Bool → List Token → Prop
  | _, [] => True
  | fresh, token :: tokens =>
    (fresh = true → token ≠ .char '.') ∧ LeavesHidden (token.leadsTo fresh) tokens

theorem LeavesHidden.mono (h : LeavesHidden fresh tokens) (hfresh : fresh' = true → fresh = true) :
    LeavesHidden fresh' tokens := by
  induction tokens generalizing fresh fresh' with
  | nil => trivial
  | cons token tokens ih =>
    refine ⟨fun h' => h.1 (hfresh h'), ih h.2 ?_⟩
    cases token with
    | anySequence => exact hfresh
    | _ => exact id

theorem leavesHidden_concat : LeavesHidden fresh (tokens ++ [token]) ↔
    LeavesHidden fresh tokens ∧
      (tokens.foldl Token.leadsTo fresh = true → token ≠ .char '.') := by
  induction tokens generalizing fresh with
  | nil => simp [LeavesHidden]
  | cons first tokens ih => rw [List.cons_append, LeavesHidden, LeavesHidden, ih, and_assoc]; rfl

/-! ## Matching -/

theorem Token.IsSingle.leadsTo_eq (h : token.IsSingle)
    (hc : token.matchesChar spelled fresh c = true) :
    token.leadsTo fresh' = decide (c = '/') := by
  cases token with
  | anySequence => exact absurd rfl (h false)
  | anyComponents => exact absurd rfl (h true)
  | char d =>
    rw [of_decide_eq_true hc]
    simp [Token.leadsTo]
  | anyChar =>
    rw [Token.matchesChar_anyChar, Bool.and_eq_true, bne_iff_ne] at hc
    exact (decide_eq_false hc.1).symm
  | oneOf negated ranges =>
    rw [Token.matchesChar_oneOf, Bool.and_eq_true, Bool.and_eq_true, bne_iff_ne] at hc
    exact (decide_eq_false hc.1.1).symm

/-- Only a dot of the pattern matches a dot that must be spelled out. -/
theorem Token.ne_dot_of_matchesChar (h : token.matchesChar true true c = true)
    (hne : token ≠ .char '.') : c ≠ '.' := by
  rintro rfl
  cases token with
  | char d => exact hne (congrArg Token.char (of_decide_eq_true h).symm)
  | anyChar => simp [Token.matchesChar_anyChar, dotAllowed] at h
  | oneOf negated ranges => simp [Token.matchesChar_oneOf, dotAllowed] at h
  | anySequence => exact absurd h Bool.false_ne_true
  | anyComponents => exact absurd h Bool.false_ne_true

theorem unhidden_of_growRow {next : Bool → Text → Outcome}
    (hnext : ∀ u, next whole u = .matched → Unhidden whole u)
    (h : growRow true whole next fresh t = .matched) : Unhidden fresh t := by
  induction t generalizing fresh with
  | nil => trivial
  | cons c t ih =>
    rw [growRow] at h
    split at h
    · cases h
    · next hallowed =>
      refine ⟨fun hfresh hdot => hallowed (by simp [dotAllowed, hfresh, hdot]), ?_⟩
      split at h
      · next hinner =>
        have hc : c ≠ '/' := by simpa using (Bool.and_eq_true_iff.mp hinner).2
        rw [decide_eq_false hc]
        exact ih h
      · next hinner =>
        split at h
        · cases h
        · next houter =>
          -- What follows the row starts a component just when the row consists of whole ones.
          have hc : decide (c = '/') = whole := by
            cases whole with
            | false => simpa using houter
            | true => simpa using hinner
          rw [hc] at h ⊢
          split at h
          · exact ih h
          · exact hnext t h

/-- What a pattern without a dot at the start of a component matches has no hidden component. -/
theorem unhidden_of_matchFrom (h : matchFrom true tokens fresh t = .matched)
    (htokens : LeavesHidden fresh tokens) : Unhidden fresh t := by
  induction tokens generalizing fresh t with
  | nil =>
    rw [matchFrom] at h
    split at h
    · next ht =>
      rw [ht]
      trivial
    · cases h
  | cons token tokens ih =>
    obtain ⟨hdot, hrest⟩ := htokens
    obtain hsingle | ⟨whole, rfl⟩ := token.isSingle_or_row
    · cases t with
      | nil => trivial
      | cons c t =>
        rw [hsingle.matchFrom_cons] at h
        split at h
        · next hc =>
          refine ⟨?_, ih h (hsingle.leadsTo_eq hc ▸ hrest)⟩
          rintro rfl
          exact Token.ne_dot_of_matchesChar hc (hdot rfl)
        · cases h
    · have hnext : LeavesHidden fresh tokens ∧ LeavesHidden whole tokens := by
        cases whole with
        | false => exact ⟨hrest, hrest.mono (absurd · Bool.false_ne_true)⟩
        | true => exact ⟨hrest.mono fun _ => rfl, hrest⟩
      rw [matchFrom_row, matchRow] at h
      split at h
      · exact unhidden_of_growRow (fun u hu => ih hu hnext.2) h
      · exact ih h hnext.1

/-! ## Reading -/

/-- No dot of the text may be the start of a component that its pattern matches: none stands after a
slash, or after a slash and stars. -/
def LeavesDots : Bool → Text → Prop
  | _, [] => True
  | fresh, c :: t => (fresh = true → c ≠ '.') ∧ LeavesDots (c = '/' || (fresh && c = '*')) t

/-- Whether a component may start after the tokens, of which the last one comes first. -/
def startsAfter (done : List Token) : Bool :=
  done.foldr (fun token fresh => token.leadsTo fresh) true

/-- What the reader has before it has no dot at the start of a component. Where it is in a class,
what stands before it has no effect on what comes after the class. -/
def Mode.LeavesDots (done : List Token) (t : Text) : Mode → Prop
  | .outside _ => Glob.LeavesDots (startsAfter done) t
  | _ => ∃ fresh, Glob.LeavesDots fresh t

theorem leavesHidden_reverse_cons (h : LeavesHidden true done.reverse)
    (htoken : startsAfter done = true → token ≠ .char '.') :
    LeavesHidden true (token :: done).reverse := by
  rw [List.reverse_cons, leavesHidden_concat, List.foldl_reverse]
  exact ⟨h, htoken⟩

theorem leavesHidden_reverse_addComponents (h : LeavesHidden true done.reverse) :
    LeavesHidden true (addComponents done).reverse := by
  unfold addComponents
  split
  · exact h
  · exact leavesHidden_reverse_cons h (by simp)

theorem startsAfter_addComponents (done : List Token) :
    startsAfter (addComponents done) = true := by
  unfold addComponents
  split <;> rfl

theorem exists_leavesDots_of_cons (h : ∃ fresh, LeavesDots fresh (c :: t)) :
    ∃ fresh, LeavesDots fresh t := by
  obtain ⟨fresh, ht⟩ := h
  exact ⟨_, ht.2⟩

theorem leavesHidden_of_parseFrom (h : parseFrom mode n done t = .ok tokens)
    (hdone : LeavesHidden true done.reverse) (ht : mode.LeavesDots done t) :
    LeavesHidden true tokens := by
  fun_induction parseFrom mode n done t with
  | case1 last n done =>
    obtain rfl := Except.ok.inj h
    exact hdone
  | case5 start n done rest ih => exact ih h hdone (exists_leavesDots_of_cons ht)
  | case6 start n done c rest hc ih => exact ih h hdone (exists_leavesDots_of_cons ht)
  | case7 start n done c rest ih => exact ih h hdone (exists_leavesDots_of_cons ht)
  | case8 start negated chars n done rest ih =>
    obtain ⟨fresh, ht⟩ := ht
    refine ih h (leavesHidden_reverse_cons hdone (by simp)) ?_
    simpa [Mode.LeavesDots, startsAfter, Token.leadsTo] using ht.2
  | case9 start negated chars n done c rest hc ih => exact ih h hdone (exists_leavesDots_of_cons ht)
  | case11 last n done hlast =>
    obtain rfl := Except.ok.inj h
    exact leavesHidden_reverse_addComponents hdone
  | case12 last n done hlast rest _ ih =>
    refine ih h (leavesHidden_reverse_addComponents hdone) ?_
    rw [Mode.LeavesDots, startsAfter_addComponents]
    simpa using ht.2.2.2
  | case15 last n done rest _ _ ih =>
    refine ih h (leavesHidden_reverse_cons hdone (by simp)) ?_
    simpa [Mode.LeavesDots, startsAfter, Token.leadsTo] using ht.2
  | case16 last n done rest _ _ _ ih =>
    refine ih h (leavesHidden_reverse_cons hdone (by simp)) ?_
    simpa [Mode.LeavesDots, startsAfter, Token.leadsTo] using ht.2
  | case17 last n done rest _ _ _ _ ih => exact ih h hdone ⟨_, ht.2⟩
  | case18 last n done c rest _ _ hstar hany hclass ih =>
    refine ih h (leavesHidden_reverse_cons hdone fun hfresh heq => ?_) ?_
    · exact ht.1 hfresh (Token.char.inj heq)
    · simpa [Mode.LeavesDots, startsAfter, Token.leadsTo, hstar] using ht.2
  | _ => cases h

/-- A pattern without a dot at the start of a component, or after stars there, has no dot where a
component may start. -/
theorem leavesHidden_of_parse {p : Pattern} (h : parse t = .ok p) (ht : LeavesDots true t) :
    LeavesHidden true p.tokens :=
  leavesHidden_of_parseFrom (parse_eq_ok_iff.mp h) trivial ht

/-- A component of a pattern that may match a hidden one: it has a dot at its start, or after stars
there. -/
def SpellsHidden (name : Text) : Prop :=
  (name.dropWhile fun c => c = '*').head? = some '.'

instance : DecidablePred SpellsHidden := fun name =>
  inferInstanceAs (Decidable ((name.dropWhile fun c => c = '*').head? = some '.'))

theorem leavesDots_slash : LeavesDots fresh ('/' :: t) ↔ LeavesDots true t := by
  simp [LeavesDots]

theorem leavesDots_append {name : Text} (hslash : '/' ∉ name)
    (hname : fresh = true → ¬ SpellsHidden name) (ht : ∀ fresh, LeavesDots fresh t) :
    LeavesDots fresh (name ++ t) := by
  induction name generalizing fresh with
  | nil => exact ht fresh
  | cons c name ih =>
    rw [List.mem_cons, not_or] at hslash
    refine ⟨?_, ih hslash.2 fun hnext hspells => ?_⟩
    · rintro hfresh rfl
      exact hname hfresh rfl
    · simp only [Bool.or_eq_true, decide_eq_true_eq, Ne.symm hslash.1, false_or,
        Bool.and_eq_true] at hnext
      obtain ⟨hfresh, rfl⟩ := hnext
      exact hname hfresh hspells

theorem leavesDots_joinWith {names : List Text} (hslash : ∀ name ∈ names, '/' ∉ name)
    (h : ∀ name ∈ names, ¬ SpellsHidden name) : LeavesDots true (Text.joinWith ['/'] names) := by
  induction names with
  | nil => trivial
  | cons name names ih =>
    obtain ⟨hname, hnames⟩ := List.forall_mem_cons.mp h
    obtain ⟨hfirst, hothers⟩ := List.forall_mem_cons.mp hslash
    cases names with
    | nil =>
      rw [Text.joinWith, ← List.append_nil name]
      exact leavesDots_append hfirst (fun _ => hname) fun _ => trivial
    | cons second rest =>
      rw [Text.joinWith_cons_cons, List.append_assoc]
      exact leavesDots_append hfirst (fun _ => hname) fun _ =>
        leavesDots_slash.mpr (ih hothers hnames)

/-! ## Any path without hidden components -/

theorem growRow_ne_exhausted {next : Bool → Text → Outcome}
    (hnext : ∀ fresh t, next fresh t ≠ .exhausted) :
    growRow spelled whole next fresh t ≠ .exhausted := by
  induction t generalizing fresh with
  | nil => exact hnext fresh []
  | cons c t ih =>
    rw [growRow]
    split
    · decide
    · split
      · exact ih
      · split
        · decide
        · split
          · exact ih
          · exact hnext _ t

theorem matchFrom_sequence_ne_exhausted :
    matchFrom spelled [.anySequence] fresh t ≠ .exhausted := by
  have hend : ∀ fresh t, matchFrom spelled [] fresh t ≠ .exhausted := fun fresh t => by
    rw [matchFrom]
    split <;> decide
  rw [matchFrom, matchRow]
  split
  · exact growRow_ne_exhausted hend
  · exact hend fresh t

theorem growRow_components_sequence (ht : spelled = true → Unhidden fresh t) :
    growRow spelled true (matchFrom spelled [.anySequence]) fresh t = .matched := by
  induction t generalizing fresh with
  | nil => rfl
  | cons c t ih =>
    have hallowed : dotAllowed spelled fresh c = true := by
      by_contra hnot
      simp only [dotAllowed, Bool.not_eq_true, Bool.not_eq_false', Bool.and_eq_true,
        decide_eq_true_eq] at hnot
      exact (ht hnot.1.2).1 hnot.1.1 hnot.2
    rw [growRow, hallowed]
    by_cases hc : c = '/'
    · have hrest := ih fun hspelled => (ht hspelled).2
      simp only [hc, decide_true] at hrest ⊢
      cases hnext : matchFrom spelled [.anySequence] true t with
      | matched => rfl
      | mismatched => exact hrest
      | exhausted => exact absurd hnext matchFrom_sequence_ne_exhausted
    · have hrest := ih fun hspelled => (ht hspelled).2
      simpa [hc] using hrest

/-- `**/*` matches every text, as long as what must be spelled out is not in it. -/
theorem matchFrom_components_sequence (ht : spelled = true → Unhidden fresh t) :
    matchFrom spelled [.anyComponents, .anySequence] fresh t = .matched := by
  rw [matchFrom, matchRow]
  cases hnext : matchFrom spelled [.anySequence] fresh t with
  | matched => rfl
  | mismatched => exact growRow_components_sequence ht
  | exhausted => exact absurd hnext matchFrom_sequence_ne_exhausted

end Typesweep.Glob
