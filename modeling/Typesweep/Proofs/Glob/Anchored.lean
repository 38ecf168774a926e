import Typesweep.Proofs.Glob.Parsing

/-!
# Patterns behind a directory

The patterns of an entry begin with the escaped text of a directory. The reader makes elements of
that text which match nothing else, and reads what follows as if it stood alone, as long as that
begins with a slash. So the directory adds its own elements to the pattern and its length to the
place of a fault, and nothing in its text, be it a wildcard, a bracket or a leading dot, changes
what the rest of the pattern means.

Without the slash this fails: where hidden names must be spelled out, `*` does not accept `.b`, but
`a*` accepts `a.b`.

* `Pattern.behind`, `Fault.behind`: a pattern and a fault with a directory in front.
* `parse_escape_append`, `parse_escape_append_eq_ok_iff`: the reader.
* `accepts_behind`, `accepts_behind_iff`: the matcher. What is accepted starts with the directory.
-/

namespace Typesweep.Glob

variable {mode : Mode} {n : Nat} {done before tokens : List Token} {dir rest t : Text}
  {token : Token} {spelled fresh : Bool} {p : Pattern}

/-- The element that an escaped character is read as. -/
def escapedToken (c : Char) : Token :=
  if c = '?' ∨ c = '*' ∨ c = '[' ∨ c = ']' then .oneOf false [(c, c)] else .char c

/-- The pattern with a directory in front, in which each character is only itself. -/
def Pattern.behind (dir : Text) (p : Pattern) : Pattern :=
  ⟨dir.map escapedToken ++ p.tokens⟩

/-- The fault with `count` further characters before its place. -/
def Fault.behind (count : Nat) (f : Fault) : Fault :=
  { f with position := count + f.position }

/-- A text that is empty or goes on from a directory with a slash. -/
def IsBehind (t : Text) : Prop :=
  ∀ c, t.head? = some c → c = '/'

theorem IsBehind.nil : IsBehind [] :=
  nofun

theorem IsBehind.slash (t : Text) : IsBehind ('/' :: t) :=
  fun _ h => (Option.some.inj h).symm

theorem IsBehind.eq_nil_or_slash (h : IsBehind t) : t = [] ∨ ∃ rest, t = '/' :: rest := by
  cases t with
  | nil => exact .inl rfl
  | cons c t =>
    obtain rfl := h c rfl
    exact .inr ⟨t, rfl⟩

/-! ## Reading -/

theorem escape_cons (c : Char) (t : Text) : escape (c :: t) = escapeChar c ++ escape t :=
  List.flatMap_cons

theorem escape_append (s t : Text) : escape (s ++ t) = escape s ++ escape t :=
  List.flatMap_append

theorem parseFrom_escapeChar (last : Option Char) (n : Nat) (done : List Token) (c : Char)
    (rest : Text) :
    ∃ last', parseFrom (.outside last) n done (escapeChar c ++ rest) =
      parseFrom (.outside last') (n + (escapeChar c).length) (escapedToken c :: done) rest := by
  unfold escapeChar escapedToken
  by_cases hc : c = '?' ∨ c = '*' ∨ c = '[' ∨ c = ']'
  · rw [if_pos hc, if_pos hc]
    refine ⟨some ']', ?_⟩
    rcases hc with rfl | rfl | rfl | rfl <;> simp [parseFrom, rangesOf]
  · rw [if_neg hc, if_neg hc]
    simp only [not_or] at hc
    exact ⟨some c, by simp [parseFrom, hc]⟩

/-- An escaped text is read character by character. -/
theorem parseFrom_escape (last : Option Char) (n : Nat) (done : List Token) (dir rest : Text) :
    ∃ last', parseFrom (.outside last) n done (escape dir ++ rest) =
      parseFrom (.outside last') (n + (escape dir).length)
        ((dir.map escapedToken).reverse ++ done) rest := by
  induction dir generalizing last n done with
  | nil => exact ⟨last, rfl⟩
  | cons c dir ih =>
    obtain ⟨last', hfirst⟩ := parseFrom_escapeChar last n done c (escape dir ++ rest)
    obtain ⟨last'', hrest⟩ := ih last' (n + (escapeChar c).length) (escapedToken c :: done)
    refine ⟨last'', ?_⟩
    rw [escape_cons, List.append_assoc, hfirst, hrest, List.length_append, Nat.add_assoc,
      List.map_cons, List.reverse_cons, List.append_assoc]
    rfl

/-- The place of the reader with `count` further characters before it. -/
def Mode.behind (count : Nat) : Mode → Mode
  | .outside last => .outside last
  | .opened start => .opened (count + start)
  | .negated start => .negated (count + start)
  | .inClass start isNegated chars => .inClass (count + start) isNegated chars

theorem getLast?_addComponents (h : done.getLast? = some (.char '/')) :
    (addComponents done).getLast? = some (.char '/') := by
  unfold addComponents
  split
  · exact h
  · rw [List.getLast?_cons, h]
    rfl

/-- `**` looks back at two tokens at most, and the first of these is no `**`. -/
theorem addComponents_append (h : done.getLast? = some (.char '/')) (before : List Token) :
    addComponents (done ++ before) = addComponents done ++ before := by
  match done, h with
  | [.char _], _ => rfl
  | token :: second :: rest, _ => cases token <;> rfl

/-- Two stars after a character of the same component are a fault at that character. -/
theorem parseFrom_inner_components {last : Option Char} (hlast : ¬(last = none ∨ last = some '/'))
    (hrow : ∀ tail, rest ≠ '*' :: tail) (n : Nat) (done : List Token) :
    parseFrom (.outside last) n done ('*' :: '*' :: rest) =
      .error ⟨n - 1, .partialComponents⟩ := by
  cases rest with
  | nil => simp [parseFrom, hlast]
  | cons c rest =>
    by_cases hslash : c = '/' <;> simp [parseFrom, hlast, hslash]

/-- The reader with more before it, from a slash on. -/
theorem parseFrom_behind (mode : Mode) (done : List Token)
    (hdone : done.getLast? = some (.char '/')) (hn : 1 ≤ n) (count : Nat) (before : List Token)
    (t : Text) :
    parseFrom (mode.behind count) (count + n) (done ++ before) t =
      ((parseFrom mode n done t).map (before.reverse ++ ·)).mapError (Fault.behind count) := by
  have hpush : ∀ (token : Token) (done : List Token), done.getLast? = some (.char '/') →
      (token :: done).getLast? = some (.char '/') := fun token done h => by
    rw [List.getLast?_cons, h]
    rfl
  fun_induction parseFrom mode n done t with
  | case1 last n done => simp [Mode.behind, parseFrom, Except.map, Except.mapError]
  | case2 start n done | case3 start n done | case4 start _ _ n done =>
    simp [Mode.behind, parseFrom, Except.map, Except.mapError, Fault.behind]
  | case5 start n done rest ih =>
    rw [← ih hdone (Nat.le_add_left 1 n)]
    simp [Mode.behind, parseFrom, Nat.add_assoc]
  | case6 start n done c rest hc ih =>
    rw [← ih hdone (Nat.le_add_left 1 n)]
    simp [Mode.behind, parseFrom, hc, Nat.add_assoc]
  | case7 start n done c rest ih =>
    rw [← ih hdone (Nat.le_add_left 1 n)]
    simp [Mode.behind, parseFrom, Nat.add_assoc]
  | case8 start isNegated chars n done rest ih =>
    rw [← ih (hpush _ done hdone) (Nat.le_add_left 1 n)]
    simp [Mode.behind, parseFrom, Nat.add_assoc]
  | case9 start isNegated chars n done c rest hc ih =>
    rw [← ih hdone (Nat.le_add_left 1 n)]
    simp [Mode.behind, parseFrom, hc, Nat.add_assoc]
  | case10 last n done rest =>
    simp [Mode.behind, parseFrom, Except.map, Except.mapError, Fault.behind, Nat.add_assoc]
  | case11 last n done hlast =>
    simp [Mode.behind, parseFrom, hlast, addComponents_append hdone, Except.map, Except.mapError]
  | case12 last n done hlast rest hrow ih =>
    rw [← ih (getLast?_addComponents hdone) (Nat.le_add_left 1 _)]
    simp [Mode.behind, parseFrom, hlast, addComponents_append hdone, Nat.add_assoc]
  | case13 last n done rest hrow hlast hend hslash =>
    simp [Mode.behind, parseFrom, hlast, Except.map, Except.mapError, Fault.behind, Nat.add_assoc]
  | case14 last n done rest hrow hlast =>
    have hplace : count + n - 1 = count + (n - 1) := Nat.add_sub_assoc hn count
    rw [Mode.behind, parseFrom_inner_components hlast hrow, hplace]
    rfl
  | case15 last n done rest hrow hpair ih =>
    rw [← ih (hpush _ done hdone) (Nat.le_add_left 1 n)]
    simp [Mode.behind, parseFrom, Nat.add_assoc]
  | case16 last n done rest _ _ _ ih =>
    rw [← ih (hpush _ done hdone) (Nat.le_add_left 1 n)]
    simp [Mode.behind, parseFrom, Nat.add_assoc]
  | case17 last n done rest _ _ _ _ ih =>
    rw [← ih hdone (Nat.le_add_left 1 n)]
    simp [Mode.behind, parseFrom, Nat.add_assoc]
  | case18 last n done c rest _ _ hstar hany hclass ih =>
    rw [← ih (hpush _ done hdone) (Nat.le_add_left 1 n)]
    simp [Mode.behind, parseFrom, hstar, hany, hclass, Nat.add_assoc]

/-- The pattern of what follows a directory is read as if it stood alone. -/
theorem parse_escape_append (dir : Text) (h : IsBehind rest) :
    parse (escape dir ++ rest) =
      ((parse rest).map (Pattern.behind dir)).mapError (Fault.behind (escape dir).length) := by
  obtain ⟨last, hread⟩ := parseFrom_escape none 0 [] dir rest
  rw [List.append_nil, Nat.zero_add] at hread
  rw [parse, parse, hread]
  obtain rfl | ⟨rest, rfl⟩ := h.eq_nil_or_slash
  · simp [parseFrom, Except.map, Except.mapError, Pattern.behind]
  · have hslash : ∀ last n done, parseFrom (.outside last) n done ('/' :: rest) =
        parseFrom (.outside '/') (n + 1) (.char '/' :: done) rest := fun last n done => by
      simp [parseFrom]
    have hbehind := parseFrom_behind (.outside '/') [.char '/'] rfl (Nat.le_refl 1)
      (escape dir).length (dir.map escapedToken).reverse rest
    rw [List.reverse_reverse] at hbehind
    rw [hslash, hslash]
    refine (congrArg (Except.map Pattern.mk) hbehind).trans ?_
    cases parseFrom (.outside '/') 1 [.char '/'] rest <;> rfl

/-! ## Matching -/

theorem matchesChar_escapedToken (spelled fresh : Bool) (c : Char) :
    (escapedToken c).matchesChar spelled fresh c = true := by
  unfold escapedToken
  split
  · next hc =>
    rcases hc with rfl | rfl | rfl | rfl <;> revert spelled fresh <;> decide
  · exact decide_eq_true rfl

theorem isSingle_escapedToken (c : Char) : (escapedToken c).IsSingle := by
  unfold escapedToken
  split <;> rintro (_ | _) <;> nofun

/-- The elements of a directory are used up by its text. -/
theorem matchFrom_escaped (spelled : Bool) (dir : Text) (tokens : List Token) (fresh : Bool)
    (t : Text) :
    ∃ fresh', matchFrom spelled (dir.map escapedToken ++ tokens) fresh (dir ++ t) =
      matchFrom spelled tokens fresh' t := by
  induction dir generalizing fresh with
  | nil => exact ⟨fresh, rfl⟩
  | cons c dir ih =>
    obtain ⟨fresh', hrest⟩ := ih (c = '/')
    refine ⟨fresh', ?_⟩
    rw [List.map_cons, List.cons_append, List.cons_append,
      (isSingle_escapedToken c).matchFrom_cons, matchesChar_escapedToken, if_pos rfl, hrest]

theorem Token.matchesChar_slash (token : Token) (spelled fresh : Bool) :
    token.matchesChar spelled fresh '/' = token.matchesChar spelled true '/' := by
  cases token <;> rfl

theorem growRow_slash {next : Bool → Text → Outcome} (whole : Bool)
    (hnext : ∀ fresh, next fresh [] = next true []) (h : IsBehind t) :
    growRow spelled whole next fresh t = growRow spelled whole next true t := by
  obtain rfl | ⟨rest, rfl⟩ := h.eq_nil_or_slash
  · exact hnext fresh
  · simp [growRow, dotAllowed]

/-- Before a slash it makes no difference whether a component starts. -/
theorem matchFrom_slash (tokens : List Token) (fresh : Bool) (h : IsBehind t) :
    matchFrom spelled tokens fresh t = matchFrom spelled tokens true t := by
  induction tokens generalizing fresh t with
  | nil => rfl
  | cons token tokens ih =>
    obtain hsingle | ⟨whole, rfl⟩ := token.isSingle_or_row
    · obtain rfl | ⟨rest, rfl⟩ := h.eq_nil_or_slash
      · rw [hsingle.matchFrom_nil, hsingle.matchFrom_nil]
      · rw [hsingle.matchFrom_cons, hsingle.matchFrom_cons, token.matchesChar_slash]
    · rw [matchFrom_row, matchFrom_row, matchRow, matchRow, ih fresh h,
        growRow_slash whole (fun fresh => ih fresh .nil) h]

/-- What follows a directory is matched as if it stood alone. -/
theorem accepts_behind (p : Pattern) (spelled : Bool) (dir : Text) (h : IsBehind t) :
    (p.behind dir).accepts spelled (dir ++ t) = p.accepts spelled t := by
  obtain ⟨fresh, hmatch⟩ := matchFrom_escaped spelled dir p.tokens true t
  rw [Pattern.accepts, Pattern.behind, hmatch, matchFrom_slash p.tokens fresh h, Pattern.accepts]

/-! ## What lies behind the directory -/

theorem parse_escape_append_eq_ok_iff (dir : Text) (h : IsBehind rest) :
    parse (escape dir ++ rest) = .ok p ↔ ∃ q, parse rest = .ok q ∧ p = q.behind dir := by
  rw [parse_escape_append dir h]
  cases parse rest with
  | error fault => simp [Except.map, Except.mapError]
  | ok q => simp [Except.map, Except.mapError, eq_comm]

theorem eq_of_matchesChar_escapedToken {c d : Char}
    (h : (escapedToken c).matchesChar spelled fresh d = true) : d = c := by
  unfold escapedToken at h
  split at h
  · simp only [Token.matchesChar_oneOf, inRanges, List.any_cons, List.any_nil, Bool.or_false,
      Bool.bne_false, Bool.and_eq_true, decide_eq_true_eq] at h
    exact Char.le_antisymm h.2.2 h.2.1
  · exact of_decide_eq_true h

/-- The elements of a directory match nothing but its text. -/
theorem exists_of_matchFrom_escaped
    (h : matchFrom spelled (dir.map escapedToken ++ tokens) fresh t = .matched) :
    ∃ rest fresh', t = dir ++ rest ∧ matchFrom spelled tokens fresh' rest = .matched := by
  induction dir generalizing fresh t with
  | nil => exact ⟨t, fresh, rfl, h⟩
  | cons c dir ih =>
    rw [List.map_cons, List.cons_append] at h
    cases t with
    | nil =>
      rw [(isSingle_escapedToken c).matchFrom_nil] at h
      cases h
    | cons d t =>
      rw [(isSingle_escapedToken c).matchFrom_cons] at h
      split at h
      · next hd =>
        obtain ⟨rest, fresh', rfl, hrest⟩ := ih h
        exact ⟨rest, fresh', by rw [eq_of_matchesChar_escapedToken hd, List.cons_append], hrest⟩
      · cases h

theorem accepts_behind_nil_iff : (Pattern.behind dir ⟨[]⟩).accepts spelled t = true ↔ t = dir := by
  constructor
  · intro haccepts
    obtain ⟨rest, fresh, rfl, hmatch⟩ :=
      exists_of_matchFrom_escaped (of_decide_eq_true haccepts)
    rw [matchFrom] at hmatch
    split at hmatch
    · next hrest => rw [hrest, List.append_nil]
    · cases hmatch
  · rintro rfl
    have hself := accepts_behind ⟨[]⟩ spelled t .nil
    rw [List.append_nil] at hself
    exact hself.trans rfl

/-- A pattern that begins with a slash has it for its first element. -/
theorem exists_tokens_of_parse_slash (h : parse ('/' :: rest) = .ok p) :
    ∃ tokens, p.tokens = .char '/' :: tokens := by
  have hread : parseFrom (.outside none) 0 [] ('/' :: rest) =
      parseFrom (.outside '/') 1 [.char '/'] rest := by simp [parseFrom]
  rw [parse_eq_ok_iff, hread] at h
  obtain ⟨tokens, htokens⟩ := prefix_of_parseFrom h
  exact ⟨tokens, htokens.symm⟩

/-- What a pattern behind a directory accepts is the directory, a slash and more, such that the
pattern by itself accepts the slash and more. -/
theorem accepts_behind_iff (h : parse ('/' :: rest) = .ok p) :
    (p.behind dir).accepts spelled t = true ↔
      ∃ below, t = dir ++ '/' :: below ∧ p.accepts spelled ('/' :: below) = true := by
  constructor
  · intro haccepts
    obtain ⟨t, fresh, rfl, hmatch⟩ := exists_of_matchFrom_escaped (of_decide_eq_true haccepts)
    obtain ⟨tokens, htokens⟩ := exists_tokens_of_parse_slash h
    have hslash : ∃ below, t = '/' :: below := by
      rw [htokens] at hmatch
      have hsingle : (Token.char '/').IsSingle := by rintro (_ | _) <;> nofun
      cases t with
      | nil =>
        rw [hsingle.matchFrom_nil] at hmatch
        cases hmatch
      | cons c below =>
        rw [hsingle.matchFrom_cons] at hmatch
        split at hmatch
        · next hc => exact ⟨below, by rw [of_decide_eq_true hc]⟩
        · cases hmatch
    obtain ⟨below, rfl⟩ := hslash
    rw [matchFrom_slash p.tokens fresh (.slash below)] at hmatch
    exact ⟨below, rfl, decide_eq_true hmatch⟩
  · rintro ⟨below, rfl, haccepts⟩
    rwa [accepts_behind p spelled dir (.slash below)]

end Typesweep.Glob
