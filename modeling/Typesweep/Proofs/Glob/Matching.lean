import Mathlib.Data.List.Basic
import Mathlib.Data.List.Infix
import Typesweep.Glob

/-!
# Matching, where hidden names need not be spelled out

The matcher tries the ends of a row one after the other and gives up early: when some end leaves too
little text for the rest of the pattern, it tries no later one. The meaning of a pattern says
nothing of this order. It takes the elements one by one, each standing for some rows of characters,
and differs from that only at the end, where `**` takes everything that is left.

Giving up early is right because `**` is a whole component. After `a**`, which no reader of patterns
accepts, a later end could start in the middle of a component, where no earlier one was tried.

* `Token.Covers`, `Matches`: the meaning of an element and of a pattern.
* `outcome`, `outcome_row`: the matcher, with its attempts as a list.
* `outcome_ne_matched_of_exhausted`: giving up early loses nothing.
* `accepts_iff_matches`: the matcher finds out what the pattern means.
-/

namespace Typesweep.Glob

variable {c : Char} {row t u v : Text} {token : Token} {tokens : List Token} {whole : Bool}

/-! ## Meaning -/

/-- A row of whole components, each with its slash, possibly none. -/
def IsComponents (row : Text) : Prop :=
  row = [] ∨ row.getLast? = some '/'

/-- Whether a row of characters can be taken by `*`, or if `whole` by `**`. -/
def IsRow (whole : Bool) (row : Text) : Prop :=
  if whole then IsComponents row else '/' ∉ row

/-- The rows of characters that an element stands for. -/
def Token.Covers : Token → Text → Prop
  | .anySequence, row => IsRow false row
  | .anyComponents, row => IsRow true row
  | token, row => ∃ c, row = [c] ∧ token.matchesChar false true c = true

/-- The texts that a pattern stands for. -/
inductive Matches : List Token → Text → Prop
  | nil : Matches [] []
  | cons {token : Token} {tokens : List Token} {row t : Text} :
      token.Covers row → Matches tokens t → Matches (token :: tokens) (row ++ t)
  | rest (t : Text) : Matches [.anyComponents] t

/-- `**` stands at the start, or after a slash or another `**`. -/
def Placed (tokens : List Token) : Prop :=
  tokens.IsChain fun a b => b = .anyComponents → a = .char '/' ∨ a = .anyComponents

/-! ## Elements -/

/-- The element that stands for a row. -/
def rowToken (whole : Bool) : Token :=
  if whole then .anyComponents else .anySequence

/-- An element that stands for one character. -/
def Token.IsSingle (token : Token) : Prop :=
  ∀ whole, token ≠ rowToken whole

theorem Token.isSingle_or_row (token : Token) :
    token.IsSingle ∨ ∃ whole, token = rowToken whole := by
  by_cases h : ∃ whole, token = rowToken whole
  · exact .inr h
  · exact .inl fun whole heq => h ⟨whole, heq⟩

theorem covers_row : (rowToken whole).Covers row ↔ IsRow whole row := by
  cases whole <;> rfl

theorem Token.IsSingle.covers_iff (h : token.IsSingle) :
    token.Covers row ↔ ∃ c, row = [c] ∧ token.matchesChar false true c = true := by
  cases token with
  | anySequence => exact absurd rfl (h false)
  | anyComponents => exact absurd rfl (h true)
  | _ => rfl

theorem covers_char_iff : (Token.char c).Covers row ↔ row = [c] := by
  constructor
  · rintro ⟨d, rfl, hd⟩
    exact congrArg (fun c => [c]) (of_decide_eq_true hd)
  · rintro rfl
    exact ⟨c, rfl, decide_eq_true rfl⟩

theorem covers_anyComponents_nil : Token.anyComponents.Covers [] :=
  Or.inl rfl

theorem Token.matchesChar_anyChar (spelled fresh : Bool) (c : Char) :
    Token.anyChar.matchesChar spelled fresh c = (c != '/' && dotAllowed spelled fresh c) :=
  rfl

theorem Token.matchesChar_oneOf (spelled fresh : Bool) (c : Char) (negated : Bool)
    (ranges : List (Char × Char)) :
    (Token.oneOf negated ranges).matchesChar spelled fresh c =
      (c != '/' && dotAllowed spelled fresh c && (inRanges ranges c != negated)) :=
  rfl

theorem Token.matchesChar_fresh (token : Token) (fresh : Bool) (c : Char) :
    token.matchesChar false fresh c = token.matchesChar false true c := by
  have hdot : dotAllowed false fresh c = dotAllowed false true c := by
    rw [dotAllowed, dotAllowed, Bool.and_false, Bool.and_false]
  cases token with
  | anyChar => exact congrArg (c != '/' && ·) hdot
  | oneOf negated ranges =>
    exact congrArg (c != '/' && · && (inRanges ranges c != negated)) hdot
  | _ => rfl

theorem Token.IsSingle.matchFrom_nil (h : token.IsSingle) (spelled fresh : Bool)
    (tokens : List Token) : matchFrom spelled (token :: tokens) fresh [] = .exhausted := by
  cases token with
  | anySequence => exact absurd rfl (h false)
  | anyComponents => exact absurd rfl (h true)
  | _ => rfl

theorem Token.IsSingle.matchFrom_cons (h : token.IsSingle) (spelled fresh : Bool)
    (tokens : List Token) (c : Char) (t : Text) :
    matchFrom spelled (token :: tokens) fresh (c :: t) =
      if token.matchesChar spelled fresh c then matchFrom spelled tokens (c = '/') t
      else .mismatched := by
  cases token with
  | anySequence => exact absurd rfl (h false)
  | anyComponents => exact absurd rfl (h true)
  | _ => rfl

theorem matchFrom_row (spelled whole fresh : Bool) (tokens : List Token) (t : Text) :
    matchFrom spelled (rowToken whole :: tokens) fresh t =
      matchRow spelled whole (matchFrom spelled tokens) fresh t := by
  cases whole <;> rfl

/-! ## The ends of a row -/

/-- What is left of a text after a row that is not empty, for the rows in the order in which they
are tried. -/
def laterStops (whole : Bool) : Text → List Text
  | [] => [[]]
  | c :: rest =>
    if whole && c != '/' then laterStops whole rest
    else if !whole && c = '/' then []
    else rest :: laterStops whole rest

/-- What is left of a text after a row, for all rows in the order in which they are tried. -/
def stops (whole : Bool) (t : Text) : List Text :=
  t :: laterStops whole t

/-- The first outcome that settles the match. -/
def settle : List Outcome → Outcome
  | [] => .mismatched
  | .mismatched :: outcomes => settle outcomes
  | settled :: _ => settled

theorem growRow_eq_settle {next : Bool → Text → Outcome}
    (hnext : ∀ fresh t, next fresh t = next true t) (fresh : Bool) (t : Text) :
    growRow false whole next fresh t = settle ((laterStops whole t).map (next true)) := by
  induction t generalizing fresh with
  | nil =>
    rw [growRow, hnext, laterStops, List.map_singleton]
    cases next true [] <;> rfl
  | cons c t ih =>
    have hallowed : dotAllowed false fresh c = true := by simp [dotAllowed]
    rw [growRow, laterStops, hallowed]
    simp only [Bool.not_true, Bool.false_eq_true, if_false]
    split
    · exact ih false
    · split
      · rfl
      · rw [hnext, List.map_cons]
        cases hfirst : next true t with
        | mismatched => exact ih _
        | matched => rfl
        | exhausted => rfl

theorem matchRow_eq_settle {next : Bool → Text → Outcome}
    (hnext : ∀ fresh t, next fresh t = next true t) (fresh : Bool) (t : Text) :
    matchRow false whole next fresh t = settle ((stops whole t).map (next true)) := by
  rw [matchRow, hnext, stops, List.map_cons, growRow_eq_settle hnext]
  cases next true t <;> rfl

theorem matchFrom_fresh (tokens : List Token) (fresh : Bool) (t : Text) :
    matchFrom false tokens fresh t = matchFrom false tokens true t := by
  induction tokens generalizing fresh t with
  | nil => rfl
  | cons token tokens ih =>
    obtain hsingle | ⟨whole, rfl⟩ := token.isSingle_or_row
    · cases t with
      | nil => rw [hsingle.matchFrom_nil, hsingle.matchFrom_nil]
      | cons c t => rw [hsingle.matchFrom_cons, hsingle.matchFrom_cons, token.matchesChar_fresh]
    · rw [matchFrom_row, matchFrom_row, matchRow_eq_settle ih, matchRow_eq_settle ih]

/-- The outcome of matching where hidden names need not be spelled out: then it does not matter
whether a component starts. -/
def outcome (tokens : List Token) (t : Text) : Outcome :=
  matchFrom false tokens true t

theorem outcome_nil (t : Text) : outcome [] t = if t = [] then .matched else .mismatched :=
  rfl

theorem Token.IsSingle.outcome_nil (h : token.IsSingle) (tokens : List Token) :
    outcome (token :: tokens) [] = .exhausted :=
  h.matchFrom_nil false true tokens

theorem Token.IsSingle.outcome_cons (h : token.IsSingle) (tokens : List Token) (c : Char)
    (t : Text) :
    outcome (token :: tokens) (c :: t) =
      if token.matchesChar false true c then outcome tokens t else .mismatched := by
  rw [outcome, h.matchFrom_cons, matchFrom_fresh, outcome]

theorem outcome_row (whole : Bool) (tokens : List Token) (t : Text) :
    outcome (rowToken whole :: tokens) t = settle ((stops whole t).map (outcome tokens)) := by
  rw [outcome, matchFrom_row, matchRow_eq_settle (matchFrom_fresh tokens)]
  rfl

/-! ## Which ends are tried -/

theorem mem_stops_false : u ∈ stops false t ↔ ∃ row, '/' ∉ row ∧ row ++ u = t := by
  induction t with
  | nil =>
    simp only [stops, laterStops, List.mem_cons, List.not_mem_nil, or_false, or_self,
      List.append_eq_nil_iff]
    exact ⟨fun h => ⟨[], List.not_mem_nil, rfl, h⟩, fun ⟨_, _, _, h⟩ => h⟩
  | cons c t ih =>
    have hlater : u ∈ laterStops false (c :: t) ↔ c ≠ '/' ∧ u ∈ stops false t := by
      by_cases hc : c = '/' <;> simp [laterStops, stops, hc]
    rw [stops, List.mem_cons, hlater, ih]
    constructor
    · rintro (rfl | ⟨hc, row, hrow, rfl⟩)
      · exact ⟨[], List.not_mem_nil, rfl⟩
      · exact ⟨c :: row, by simp [hrow, Ne.symm hc], rfl⟩
    · rintro ⟨row, hrow, heq⟩
      cases row with
      | nil => exact .inl heq
      | cons d row =>
        obtain ⟨rfl, htail⟩ := List.cons.inj heq
        rw [List.mem_cons, not_or] at hrow
        exact .inr ⟨Ne.symm hrow.1, row, hrow.2, htail⟩

theorem mem_laterStops_true : u ∈ laterStops true t ↔ u = [] ∨ '/' :: u <:+ t := by
  induction t with
  | nil => simp [laterStops]
  | cons c t ih =>
    rw [List.suffix_cons_iff, List.cons.injEq]
    by_cases hc : c = '/'
    · simp only [laterStops, hc, bne_self_eq_false, Bool.and_false, Bool.false_eq_true, if_false,
        Bool.not_true, Bool.false_and, List.mem_cons, ih]
      tauto
    · simp only [laterStops, bne_iff_ne, ne_eq, hc, not_false_eq_true, Bool.true_and, if_true, ih,
        Ne.symm hc, false_and, false_or]

/-- `**` ends at its start, at the end of the text, and after each slash. -/
theorem mem_stops_true : u ∈ stops true t ↔ u = t ∨ u = [] ∨ '/' :: u <:+ t := by
  rw [stops, List.mem_cons, mem_laterStops_true]

theorem suffix_of_mem_stops (h : u ∈ stops whole t) : u <:+ t := by
  cases whole with
  | false =>
    obtain ⟨row, -, rfl⟩ := mem_stops_false.mp h
    exact List.suffix_append row u
  | true =>
    rcases mem_stops_true.mp h with rfl | rfl | h
    · exact List.suffix_refl u
    · exact List.nil_suffix
    · exact (List.suffix_cons '/' u).trans h

theorem laterStops_pairwise (whole : Bool) (t : Text) :
    (laterStops whole t).Pairwise fun u v => v <:+ u := by
  induction t with
  | nil => exact List.pairwise_singleton _ _
  | cons c t ih =>
    rw [laterStops]
    split
    · exact ih
    · split
      · exact List.Pairwise.nil
      · exact List.pairwise_cons.mpr
          ⟨fun v hv => suffix_of_mem_stops (List.mem_cons_of_mem t hv), ih⟩

/-- Each end that is tried leaves less text than those before it. -/
theorem stops_pairwise (whole : Bool) (t : Text) : (stops whole t).Pairwise fun u v => v <:+ u :=
  List.pairwise_cons.mpr ⟨fun _ hv => suffix_of_mem_stops (List.mem_cons_of_mem t hv),
    laterStops_pairwise whole t⟩

theorem append_mem_stops (h : IsRow whole row) (t : Text) : t ∈ stops whole (row ++ t) := by
  cases whole with
  | false => exact mem_stops_false.mpr ⟨row, h, rfl⟩
  | true =>
    refine mem_stops_true.mpr ?_
    rcases h with rfl | hlast
    · exact .inl rfl
    · obtain ⟨start, rfl⟩ := List.getLast?_eq_some_iff.mp hlast
      exact .inr (.inr ⟨start, by simp⟩)

/-- What is left after a row, unless `**` took all of the text. -/
theorem exists_row_of_mem_stops (h : u ∈ stops whole t) :
    (whole = true ∧ u = []) ∨ ∃ row, IsRow whole row ∧ row ++ u = t := by
  cases whole with
  | false => exact .inr (mem_stops_false.mp h)
  | true =>
    rcases mem_stops_true.mp h with rfl | hnil | ⟨start, hstart⟩
    · exact .inr ⟨[], .inl rfl, rfl⟩
    · exact .inl ⟨rfl, hnil⟩
    · exact .inr ⟨start ++ ['/'], .inr (by simp), by simpa using hstart⟩

theorem mem_stops_trans (hu : u ∈ stops true t) (hv : v ∈ stops true u) : v ∈ stops true t := by
  rcases mem_stops_true.mp hv with rfl | rfl | hv
  · exact hu
  · exact mem_stops_true.mpr (.inr (.inl rfl))
  · exact mem_stops_true.mpr (.inr (.inr (hv.trans (suffix_of_mem_stops hu))))

theorem mem_stops_of_length_le (hu : u ∈ stops true t) (hv : v ∈ stops true t)
    (hle : v.length ≤ u.length) : v ∈ stops true u := by
  have hsuffix : v <:+ u :=
    List.suffix_of_suffix_length_le (suffix_of_mem_stops hv) (suffix_of_mem_stops hu) hle
  rcases mem_stops_true.mp hv with rfl | rfl | hslash
  · exact mem_stops_true.mpr
      (.inl (hsuffix.eq_of_length_le (suffix_of_mem_stops hu).length_le))
  · exact mem_stops_true.mpr (.inr (.inl rfl))
  · rcases Nat.lt_or_ge v.length u.length with hlt | hge
    · exact mem_stops_true.mpr (.inr (.inr
        (List.suffix_of_suffix_length_le hslash (suffix_of_mem_stops hu) hlt)))
    · exact mem_stops_true.mpr (.inl (hsuffix.eq_of_length_le hge))

/-! ## Settling -/

variable {f : Text → Outcome} {ends : List Text} {o : Outcome}

theorem exists_of_settle_eq (hsorted : ends.Pairwise fun u v => v <:+ u)
    (h : settle (ends.map f) = o) (ho : o ≠ .mismatched) :
    ∃ u ∈ ends, f u = o ∧ ∀ v ∈ ends, u.length < v.length → f v = .mismatched := by
  induction ends with
  | nil => exact absurd h.symm ho
  | cons first rest ih =>
    obtain ⟨hfirst, hrest⟩ := List.pairwise_cons.mp hsorted
    by_cases hf : f first = .mismatched
    · rw [List.map_cons, hf, settle] at h
      obtain ⟨u, hu, hfu, hbefore⟩ := ih hrest h
      refine ⟨u, List.mem_cons_of_mem first hu, hfu, fun v hv hlt => ?_⟩
      rcases List.mem_cons.mp hv with rfl | hv
      · exact hf
      · exact hbefore v hv hlt
    · have hsettled : f first = o := by
        rw [List.map_cons] at h
        cases hcase : f first with
        | mismatched => exact absurd hcase hf
        | matched => rw [hcase] at h; exact h
        | exhausted => rw [hcase] at h; exact h
      refine ⟨first, List.mem_cons_self, hsettled, fun v hv hlt => ?_⟩
      rcases List.mem_cons.mp hv with rfl | hv
      · exact absurd hlt (Nat.lt_irrefl _)
      · exact absurd (hfirst v hv).length_le (Nat.not_le.mpr hlt)

theorem settle_eq_matched (hsorted : ends.Pairwise fun u v => v <:+ u) (hu : u ∈ ends)
    (hmatched : f u = .matched) (h : ∀ v ∈ ends, u <:+ v → f v ≠ .exhausted) :
    settle (ends.map f) = .matched := by
  induction ends with
  | nil => cases hu
  | cons first rest ih =>
    obtain ⟨hfirst, hrest⟩ := List.pairwise_cons.mp hsorted
    have hsuffix : u <:+ first := by
      rcases List.mem_cons.mp hu with rfl | hu
      · exact List.suffix_refl u
      · exact hfirst u hu
    rw [List.map_cons]
    cases hf : f first with
    | matched => rfl
    | exhausted => exact absurd hf (h first List.mem_cons_self hsuffix)
    | mismatched =>
      rcases List.mem_cons.mp hu with rfl | hu
      · rw [hf] at hmatched
        cases hmatched
      · exact ih hrest hu fun v hv => h v (List.mem_cons_of_mem first hv)

/-! ## Giving up early -/

theorem Placed.tail (h : Placed (token :: tokens)) : Placed tokens :=
  h.of_cons

theorem Placed.head? (h : Placed (token :: tokens))
    (hhead : tokens.head? = some .anyComponents) : token = .char '/' ∨ token = .anyComponents := by
  cases tokens with
  | nil => cases hhead
  | cons next tokens => exact (List.isChain_cons_cons.mp h).1 (Option.some.inj hhead)

/-- What can be left of a text where a row starts later than at `t`: a row of whole components
starts where a component does. -/
def IsStart (whole : Bool) (t u : Text) : Prop :=
  if whole then u ∈ stops true t else u <:+ t

theorem IsStart.suffix (h : IsStart whole t u) : u <:+ t := by
  cases whole with
  | false => exact h
  | true => exact suffix_of_mem_stops h

/-- What can be left of a text where a pattern is tried later than at `t`. -/
def IsLater (tokens : List Token) (t u : Text) : Prop :=
  IsStart (tokens.head? = some .anyComponents) t u

theorem isLater_of_mem_stops (h : u ∈ stops true t) : IsLater tokens t u := by
  unfold IsLater
  cases decide (tokens.head? = some .anyComponents) with
  | false => exact suffix_of_mem_stops h
  | true => exact h

theorem isLater_of_suffix (htokens : tokens.head? ≠ some .anyComponents) (h : u <:+ t) :
    IsLater tokens t u := by
  rw [IsLater, decide_eq_false htokens]
  exact h

theorem isLater_row : IsLater (rowToken whole :: tokens) t u ↔ IsStart whole t u := by
  cases whole <;> rfl

/-- If `**` comes next, then the character before it was a slash. -/
theorem isLater_of_single (hplaced : Placed (token :: tokens)) (hsingle : token.IsSingle)
    (hc : token.matchesChar false true c = true) (h : c :: u <:+ t) : IsLater tokens t u := by
  by_cases hhead : tokens.head? = some .anyComponents
  · obtain rfl | rfl := hplaced.head? hhead
    · obtain rfl : c = '/' := of_decide_eq_true hc
      exact isLater_of_mem_stops (mem_stops_true.mpr (.inr (.inr h)))
    · exact absurd rfl (hsingle true)
  · exact isLater_of_suffix hhead ((List.suffix_cons c u).trans h)

/-- An end that is tried later, but leaves more text than one that was tried, was tried as well. -/
theorem mem_stops_of_length_lt (hu : IsStart whole t u) (hv : v ∈ stops whole t) {w : Text}
    (hw : w ∈ stops whole u) (hlt : v.length < w.length) : w ∈ stops whole t := by
  cases whole with
  | true => exact mem_stops_trans hu hw
  | false =>
    obtain ⟨row, hrow, rfl⟩ := mem_stops_false.mp hv
    obtain ⟨start, hstart⟩ := (suffix_of_mem_stops hw).trans hu.suffix
    obtain ⟨more, rfl⟩ : v <:+ w :=
      List.suffix_of_suffix_length_le (List.suffix_append row v) ⟨start, hstart⟩ (Nat.le_of_lt hlt)
    rw [← List.append_assoc] at hstart
    obtain rfl : start ++ more = row := List.append_cancel_right hstart
    rw [List.mem_append, not_or] at hrow
    exact mem_stops_false.mpr ⟨start, hrow.1, by rw [List.append_assoc]⟩

/-- An end that is tried later and leaves no more text than one that was tried comes after it. -/
theorem isLater_of_length_le (hplaced : Placed (rowToken whole :: tokens)) (hu : IsStart whole t u)
    (hv : v ∈ stops whole t) {w : Text} (hw : w ∈ stops whole u) (hle : w.length ≤ v.length) :
    IsLater tokens v w := by
  cases whole with
  | true => exact isLater_of_mem_stops (mem_stops_of_length_le hv (mem_stops_trans hu hw) hle)
  | false =>
    refine isLater_of_suffix (fun hhead => ?_) ?_
    · rcases hplaced.head? hhead with heq | heq <;> cases heq
    · exact List.suffix_of_suffix_length_le ((suffix_of_mem_stops hw).trans hu.suffix)
        (suffix_of_mem_stops hv) hle

/-- Once a text is too short for a pattern, so is all that can be left of it later. -/
theorem outcome_ne_matched_of_exhausted (hplaced : Placed tokens)
    (h : outcome tokens t = .exhausted) (hu : IsLater tokens t u) :
    outcome tokens u ≠ .matched := by
  induction tokens generalizing t u with
  | nil =>
    rw [outcome_nil] at h
    split at h <;> cases h
  | cons token tokens ih =>
    intro hmatched
    obtain hsingle | ⟨whole, rfl⟩ := token.isSingle_or_row
    · cases u with
      | nil =>
        rw [hsingle.outcome_nil] at hmatched
        cases hmatched
      | cons d u =>
        obtain ⟨c, rest, rfl⟩ := List.exists_cons_of_ne_nil (l := t) fun ht => by
          rw [ht] at hu
          cases List.suffix_nil.mp hu.suffix
        rcases List.suffix_cons_iff.mp hu.suffix with heq | hsuffix
        · rw [heq, h] at hmatched
          cases hmatched
        · rw [hsingle.outcome_cons] at h hmatched
          split at hmatched
          · next hd =>
            split at h
            · exact ih hplaced.tail h (isLater_of_single hplaced hsingle hd hsuffix) hmatched
            · cases h
          · cases hmatched
    · rw [outcome_row] at h hmatched
      rw [isLater_row] at hu
      obtain ⟨v, hv, hexhausted, hbefore⟩ :=
        exists_of_settle_eq (stops_pairwise whole t) h (by simp)
      obtain ⟨w, hw, hwmatched, -⟩ :=
        exists_of_settle_eq (stops_pairwise whole u) hmatched (by simp)
      rcases Nat.lt_or_ge v.length w.length with hlt | hge
      · rw [hbefore w (mem_stops_of_length_lt hu hv hw hlt) hlt] at hwmatched
        cases hwmatched
      · exact ih hplaced.tail hexhausted (isLater_of_length_le hplaced hu hv hw hge) hwmatched

/-! ## The matcher and the meaning -/

theorem exists_components_append (t : Text) :
    ∃ row name, t = row ++ name ∧ IsComponents row ∧ '/' ∉ name := by
  induction t with
  | nil => exact ⟨[], [], rfl, .inl rfl, List.not_mem_nil⟩
  | cons c t ih =>
    obtain ⟨row, name, rfl, hrow, hname⟩ := ih
    rcases hrow with rfl | hlast
    · by_cases hc : c = '/'
      · exact ⟨[c], name, rfl, .inr (congrArg some hc), hname⟩
      · exact ⟨[], c :: name, rfl, .inl rfl, by simp [hname, Ne.symm hc]⟩
    · exact ⟨c :: row, name, rfl, .inr (by rw [List.getLast?_cons, hlast]; rfl), hname⟩

/-- A pattern that can be nothing ends with a row, which can be a name instead. -/
theorem Matches.of_nil (h : Matches tokens []) (hne : tokens ≠ []) {name : Text}
    (hname : '/' ∉ name) : Matches tokens name := by
  induction tokens with
  | nil => exact absurd rfl hne
  | cons token tokens ih =>
    generalize ht : ([] : Text) = t at h
    cases h with
    | rest => exact .rest name
    | cons hrow htail =>
      obtain ⟨rfl, rfl⟩ := List.append_eq_nil_iff.mp ht.symm
      by_cases htokens : tokens = []
      · subst htokens
        obtain hsingle | ⟨whole, rfl⟩ := token.isSingle_or_row
        · obtain ⟨c, hc, -⟩ := hsingle.covers_iff.mp hrow
          cases hc
        · cases whole with
          | true => exact .rest name
          | false =>
            rw [← List.append_nil name]
            exact .cons hname .nil
      · exact .cons hrow (ih htail htokens)

/-- `**` may take all of a text if the rest of the pattern can be nothing. -/
theorem Matches.components_of_nil (h : Matches tokens []) (t : Text) :
    Matches (.anyComponents :: tokens) t := by
  by_cases htokens : tokens = []
  · subst htokens
    exact .rest t
  · obtain ⟨row, name, rfl, hrow, hname⟩ := exists_components_append t
    exact .cons hrow (h.of_nil htokens hname)

theorem matches_of_outcome (h : outcome tokens t = .matched) : Matches tokens t := by
  induction tokens generalizing t with
  | nil =>
    rw [outcome_nil] at h
    split at h
    · next ht => exact ht ▸ .nil
    · cases h
  | cons token tokens ih =>
    obtain hsingle | ⟨whole, rfl⟩ := token.isSingle_or_row
    · cases t with
      | nil =>
        rw [hsingle.outcome_nil] at h
        cases h
      | cons c t =>
        rw [hsingle.outcome_cons] at h
        split at h
        · next hc =>
          have hcovers : token.Covers [c] := hsingle.covers_iff.mpr ⟨c, rfl, hc⟩
          exact .cons hcovers (ih h)
        · cases h
    · rw [outcome_row] at h
      obtain ⟨u, hu, hmatched, -⟩ := exists_of_settle_eq (stops_pairwise whole t) h (by simp)
      rcases exists_row_of_mem_stops hu with ⟨rfl, rfl⟩ | ⟨row, hrow, rfl⟩
      · exact (ih hmatched).components_of_nil t
      · exact .cons (covers_row.mpr hrow) (ih hmatched)

theorem outcome_of_matches (hplaced : Placed tokens) (h : Matches tokens t) :
    outcome tokens t = .matched := by
  induction h with
  | nil => rfl
  | @cons token tokens row t hrow hrest ih =>
    have hmatched := ih hplaced.tail
    obtain hsingle | ⟨whole, rfl⟩ := token.isSingle_or_row
    · obtain ⟨c, rfl, hc⟩ := hsingle.covers_iff.mp hrow
      rw [List.singleton_append, hsingle.outcome_cons, if_pos hc, hmatched]
    · rw [outcome_row]
      have hend : t ∈ stops whole (row ++ t) := append_mem_stops (covers_row.mp hrow) t
      refine settle_eq_matched (stops_pairwise whole _) hend hmatched
        fun v hv hsuffix hexhausted => ?_
      -- An end before that gave up would have ruled out this one.
      have hlater : IsLater tokens v t :=
        isLater_of_length_le hplaced
          (by cases whole <;> simp [IsStart, stops]) hv hend hsuffix.length_le
      exact outcome_ne_matched_of_exhausted hplaced.tail hexhausted hlater hmatched
  | rest t =>
    have hend : [] ∈ stops true t := mem_stops_true.mpr (.inr (.inl rfl))
    refine (outcome_row true [] t).trans (settle_eq_matched (stops_pairwise true t) hend rfl ?_)
    intro v _ _ hexhausted
    rw [outcome_nil] at hexhausted
    split at hexhausted <;> cases hexhausted

/-- The matcher accepts just the texts that the pattern stands for. -/
theorem accepts_iff_matches {p : Pattern} (hplaced : Placed p.tokens) :
    p.accepts false t = true ↔ Matches p.tokens t := by
  rw [Pattern.accepts, decide_eq_true_iff]
  exact ⟨matches_of_outcome, outcome_of_matches hplaced⟩

/-! ## Longer patterns -/

theorem Matches.append {us : List Token} (h : Matches tokens t)
    (hlast : tokens.getLast? ≠ some .anyComponents) (hu : Matches us u) :
    Matches (tokens ++ us) (t ++ u) := by
  induction h with
  | nil => exact hu
  | @cons token tokens row t hrow hrest ih =>
    rw [List.append_assoc]
    cases tokens with
    | nil =>
      obtain rfl : t = [] := by cases hrest; rfl
      exact .cons hrow hu
    | cons => exact .cons hrow (ih (by rwa [List.getLast?_cons_cons] at hlast))
  | rest t => exact absurd rfl hlast

/-- Another end of a pattern takes more of a text. -/
theorem Matches.change_end {us us' : List Token} (h : Matches (tokens ++ us) t) (hne : us ≠ [])
    (himp : ∀ v, Matches us v → Matches us' (v ++ u)) : Matches (tokens ++ us') (t ++ u) := by
  induction tokens generalizing t with
  | nil => exact himp t h
  | cons token tokens ih =>
    generalize hall : token :: tokens ++ us = all at h
    cases h with
    | nil => cases hall
    | cons hrow hrest =>
      obtain ⟨rfl, rfl⟩ := List.cons.inj hall
      rw [List.append_assoc]
      exact .cons hrow (ih hrest)
    | rest => exact absurd (List.append_eq_nil_iff.mp (List.cons.inj hall).2).2 hne

/-- `**/*` is any text. -/
theorem matches_components_sequence (t : Text) : Matches [.anyComponents, .anySequence] t := by
  obtain ⟨row, name, rfl, hrow, hname⟩ := exists_components_append t
  rw [← List.append_nil name]
  exact .cons hrow (.cons hname .nil)

end Typesweep.Glob
